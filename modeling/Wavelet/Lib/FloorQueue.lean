import Mathlib.Order.BoundedOrder.Lattice
import Mathlib.Data.List.Basic

/-!
# Stable priority queues with a rising floor

Items with a rank each, in the order of their arrival, and a floor that no rank lies below,
which is a field, so a queue with an item under its floor cannot be built. `push` refuses an
item below the floor. `pop` takes the earliest item of the least rank and raises the floor
to that rank; with nothing left to take it lowers the floor to the bottom.
-/

structure FloorQueue (κ α : Type*) [LinearOrder κ] where
  items : List (κ × α)
  floor : κ
  high : ∀ e ∈ items, floor ≤ e.1

namespace FloorQueue

variable {κ α : Type*} [LinearOrder κ]

/-! ## The least item -/

/-- The earliest item of the least rank, and the other items. -/
def takeLeast : List (κ × α) → Option ((κ × α) × List (κ × α))
  | [] => none
  | e :: rest =>
    match takeLeast rest with
    | none => some (e, [])
    | some (f, others) => if e.1 ≤ f.1 then some (e, rest) else some (f, e :: others)

/-- The items of rank `d`. -/
def laneOf (d : κ) (items : List (κ × α)) : List α := (items.filter fun e => e.1 = d).map (·.2)

theorem laneOf_cons (d : κ) (e : κ × α) (items : List (κ × α)) :
    laneOf d (e :: items) = if e.1 = d then e.2 :: laneOf d items else laneOf d items := by
  simp only [laneOf, List.filter_cons, decide_eq_true_eq]
  split <;> rfl

theorem laneOf_append (d : κ) (before after : List (κ × α)) :
    laneOf d (before ++ after) = laneOf d before ++ laneOf d after := by
  simp only [laneOf, List.filter_append, List.map_append]

theorem takeLeast_eq_none {items : List (κ × α)} (h : takeLeast items = none) : items = [] := by
  cases items with
  | nil => rfl
  | cons e rest =>
    rw [takeLeast] at h
    split at h
    · cases h
    · split at h <;> cases h

/-- The item taken is in front of its lane, no rank is lower, and nothing else moves. -/
theorem takeLeast_eq_some {items others : List (κ × α)} {f : κ × α} (h : takeLeast items = some (f, others)) :
    (f :: others).Perm items ∧ (∀ e ∈ items, f.1 ≤ e.1) ∧
      ∀ d, laneOf d items = if f.1 = d then f.2 :: laneOf d others else laneOf d others := by
  induction items generalizing f others with
  | nil => cases h
  | cons e rest ih =>
    rw [takeLeast] at h
    split at h
    · rename_i nothing
      cases h
      rw [takeLeast_eq_none nothing]
      refine ⟨.refl _, ?_, fun d => laneOf_cons d _ []⟩
      intro g member
      rw [List.mem_singleton.mp member]
    · rename_i g left taken
      obtain ⟨perm, least, lanes⟩ := ih taken
      split at h
      · rename_i lower
        cases h
        refine ⟨.refl _, ?_, fun d => laneOf_cons d _ _⟩
        intro a member
        rcases List.mem_cons.mp member with rfl | later
        · exact le_refl _
        · exact le_trans lower (least a later)
      · rename_i higher
        cases h
        refine ⟨(List.Perm.swap e f left).trans (perm.cons e), ?_, fun d => ?_⟩
        · intro a member
          rcases List.mem_cons.mp member with rfl | later
          · exact le_of_lt (lt_of_not_ge higher)
          · exact least a later
        · rw [laneOf_cons, laneOf_cons, lanes]
          by_cases here : e.1 = d
          · subst here
            rw [if_pos rfl, if_pos rfl, if_neg (fun same => higher (le_of_eq same.symm)), if_neg]
            exact fun same => higher (le_of_eq same.symm)
          · rw [if_neg here, if_neg here]

/-! ## The operations -/

def push (q : FloorQueue κ α) (d : κ) (a : α) : Option (FloorQueue κ α) :=
  if low : q.floor ≤ d then
    some { q with
      items := q.items ++ [(d, a)]
      high := by
        intro e member
        rcases List.mem_append.mp member with old | new
        · exact q.high e old
        · rw [List.mem_singleton.mp new]
          exact low }
  else none

variable [OrderBot κ]

def empty : FloorQueue κ α := ⟨[], ⊥, fun _ member => by cases member⟩

def pop (q : FloorQueue κ α) : Option (κ × α) × FloorQueue κ α :=
  match taken : takeLeast q.items with
  | none => (none, ⟨q.items, ⊥, fun _ _ => bot_le⟩)
  | some (f, others) => (some f, ⟨others, f.1, fun e member =>
      have spec := takeLeast_eq_some taken
      spec.2.1 e (spec.1.subset (List.mem_cons_of_mem _ member))⟩)

/-- The items of rank `d`, earliest first. -/
def lane (q : FloorQueue κ α) (d : κ) : List α := laneOf d q.items

omit [OrderBot κ] in
theorem push_eq_some {q q' : FloorQueue κ α} {d : κ} {a : α} (h : q.push d a = some q') :
    q.floor ≤ d ∧ q'.items = q.items ++ [(d, a)] ∧ q'.floor = q.floor := by
  unfold push at h
  split at h
  · rename_i low
    cases h
    exact ⟨low, rfl, rfl⟩
  · cases h

omit [OrderBot κ] in
theorem push_eq_none_iff {q : FloorQueue κ α} {d : κ} {a : α} : q.push d a = none ↔ d < q.floor := by
  unfold push
  split
  · rename_i low
    simp [low]
  · rename_i below
    simp [lt_of_not_ge below]

omit [OrderBot κ] in
theorem lane_push {q q' : FloorQueue κ α} {d : κ} {a : α} (h : q.push d a = some q') (e : κ) :
    q'.lane e = if d = e then q.lane e ++ [a] else q.lane e := by
  rw [lane, (push_eq_some h).2.1, laneOf_append, laneOf_cons]
  split
  · rfl
  · exact List.append_nil _

theorem pop_eq_none {q q' : FloorQueue κ α} (h : q.pop = (none, q')) :
    q.items = [] ∧ q'.items = [] ∧ q'.floor = ⊥ := by
  unfold pop at h
  split at h
  · rename_i nothing
    cases h
    have empty := takeLeast_eq_none nothing
    exact ⟨empty, empty, rfl⟩
  · cases h

/-- What a pop that finds an item does: nothing waits at a lower rank, the item is the
earliest of its own, the floor is there now, and the other items stay. -/
theorem pop_eq_some {q q' : FloorQueue κ α} {f : κ × α} (h : q.pop = (some f, q')) :
    (f :: q'.items).Perm q.items ∧ q'.floor = f.1 ∧ (∀ e ∈ q.items, f.1 ≤ e.1) ∧
      ∀ d, q.lane d = if f.1 = d then f.2 :: q'.lane d else q'.lane d := by
  unfold pop at h
  split at h
  · cases h
  · rename_i g others taken
    cases h
    obtain ⟨perm, least, lanes⟩ := takeLeast_eq_some taken
    exact ⟨perm, rfl, least, lanes⟩

omit [OrderBot κ] in
theorem lane_eq_nil_of_lt {q : FloorQueue κ α} {d : κ} (below : ∀ e ∈ q.items, d < e.1) : q.lane d = [] := by
  unfold lane laneOf
  rw [List.map_eq_nil_iff, List.filter_eq_nil_iff]
  intro e member same
  exact absurd (of_decide_eq_true same) (ne_of_gt (below e member))

omit [OrderBot κ] in
theorem items_eq_nil_iff {q : FloorQueue κ α} : q.items = [] ↔ ∀ d, q.lane d = [] := by
  constructor
  · intro none d
    rw [lane, none]
    rfl
  · intro none
    by_contra some
    obtain ⟨e, rest, items⟩ := List.exists_cons_of_ne_nil some
    have front := none e.1
    rw [lane, items, laneOf_cons, if_pos rfl] at front
    cases front

end FloorQueue
