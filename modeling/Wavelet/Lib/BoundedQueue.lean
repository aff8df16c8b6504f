import Mathlib.Data.List.Basic

/-!
# Bounded FIFO queues

A FIFO queue that never holds more than `capacity` items; the bound is a field, so a
queue past its capacity cannot be built. `push` refuses an item when the queue is full,
`forcePush` makes room by evicting the oldest item, `pop` takes the oldest item.
-/

structure BoundedQueue (α : Type*) where
  items : List α
  capacity : Nat
  bounded : items.length ≤ capacity

namespace BoundedQueue

variable {α : Type*}

def empty (capacity : Nat) : BoundedQueue α := ⟨[], capacity, Nat.zero_le _⟩

def Full (q : BoundedQueue α) : Prop := q.items.length = q.capacity

instance (q : BoundedQueue α) : Decidable q.Full := inferInstanceAs (Decidable (_ = _))

/-- The queue with `a` at its end, or `none` when it is full. -/
def push (q : BoundedQueue α) (a : α) : Option (BoundedQueue α) :=
  if room : q.items.length < q.capacity then
    some ⟨q.items ++ [a], q.capacity, by rw [List.length_append, List.length_singleton]; omega⟩
  else none

/-- The evicted item, if any, and the queue with `a` at its end. -/
def forcePush (q : BoundedQueue α) (a : α) : Option α × BoundedQueue α :=
  if room : q.items.length < q.capacity then
    (none, ⟨q.items ++ [a], q.capacity, by rw [List.length_append, List.length_singleton]; omega⟩)
  else
    match items : q.items with
    | [] => (some a, q)
    | b :: rest => (some b, ⟨rest ++ [a], q.capacity, by have := q.bounded; simpa [items] using this⟩)

/-- The oldest item and the queue without it. -/
def pop (q : BoundedQueue α) : Option (α × BoundedQueue α) :=
  match items : q.items with
  | [] => none
  | a :: rest =>
    some (a, ⟨rest, q.capacity, by have := q.bounded; rw [items, List.length_cons] at this; omega⟩)

theorem push_eq_some_iff {q q' : BoundedQueue α} {a : α} :
    q.push a = some q' ↔ q.items.length < q.capacity ∧ q'.items = q.items ++ [a] ∧
      q'.capacity = q.capacity := by
  obtain ⟨items', capacity', bounded'⟩ := q'
  unfold push
  split
  · rename_i room
    simp only [Option.some.injEq, mk.injEq, room, true_and]
    exact ⟨fun h => ⟨h.1.symm, h.2.symm⟩, fun h => ⟨h.1.symm, h.2.symm⟩⟩
  · rename_i full
    simp [full]

theorem push_eq_none_iff {q : BoundedQueue α} {a : α} : q.push a = none ↔ q.Full := by
  have := q.bounded
  unfold push Full
  split <;> simp <;> omega

/-- A forced push of a queue with room for one item loses nothing but what it evicts. -/
theorem forcePush_items {q q' : BoundedQueue α} {a : α} {evicted : Option α} (room : 0 < q.capacity)
    (h : q.forcePush a = (evicted, q')) :
    q.items ++ [a] = evicted.toList ++ q'.items ∧ q'.items ≠ [] ∧ q'.capacity = q.capacity := by
  obtain ⟨items, capacity, bounded⟩ := q
  unfold forcePush at h
  split at h
  · cases h
    simp
  · rename_i full
    cases items with
    | nil => exact absurd room full
    | cons b rest =>
      cases h
      simp

/-- A forced push grows the queue by one item at most. -/
theorem forcePush_length {q q' : BoundedQueue α} {a : α} {evicted : Option α}
    (h : q.forcePush a = (evicted, q')) :
    q'.capacity = q.capacity ∧ q'.items.length ≤ q.items.length + 1 := by
  obtain ⟨items, capacity, bounded⟩ := q
  unfold forcePush at h
  split at h
  · cases h
    simp
  · cases items with
    | nil =>
      cases h
      exact ⟨rfl, Nat.zero_le _⟩
    | cons b rest =>
      cases h
      simp

theorem pop_eq_some_iff {q q' : BoundedQueue α} {a : α} :
    q.pop = some (a, q') ↔ q.items = a :: q'.items ∧ q'.capacity = q.capacity := by
  obtain ⟨items, capacity, bounded⟩ := q
  obtain ⟨items', capacity', bounded'⟩ := q'
  cases items with
  | nil => simp [pop]
  | cons b rest =>
    simp only [pop, Option.some.injEq, Prod.mk.injEq, mk.injEq, List.cons.injEq]
    exact ⟨fun h => ⟨⟨h.1, h.2.1⟩, h.2.2.symm⟩, fun h => ⟨h.1.1, h.1.2, h.2.symm⟩⟩

theorem pop_eq_none_iff {q : BoundedQueue α} : q.pop = none ↔ q.items = [] := by
  obtain ⟨items, capacity, bounded⟩ := q
  cases items <;> simp [pop]

end BoundedQueue
