import Mathlib.Data.List.Basic
import Mathlib.Order.Defs.Unbundled

/-!
# Ordered maps

A map whose entries are kept in the strict order of their keys, which is a field, so an
unordered map cannot be built. `insert` replaces the value of a key that is there, `erase`
forgets one, `popFirst` takes the first entry. The entries up to a bound come first.
-/

structure OrderedMap (κ α : Type*) (before : κ → κ → Prop) where
  entries : List (κ × α)
  sorted : entries.Pairwise fun a b => before a.1 b.1

namespace OrderedMap

variable {κ α : Type*} {before : κ → κ → Prop}

def empty : OrderedMap κ α before := ⟨[], List.Pairwise.nil⟩

instance [DecidableEq κ] [DecidableEq α] : DecidableEq (OrderedMap κ α before) := fun a b =>
  decidable_of_iff (a.entries = b.entries) ⟨fun same => by cases a; cases b; cases same; rfl,
    fun same => by rw [same]⟩

def first (m : OrderedMap κ α before) : Option (κ × α) := m.entries.head?

/-- The first entry and the map without it. -/
def popFirst (m : OrderedMap κ α before) : Option ((κ × α) × OrderedMap κ α before) :=
  match entries : m.entries with
  | [] => none
  | e :: rest => some (e, ⟨rest, by have := m.sorted; rw [entries] at this; exact this.of_cons⟩)

theorem popFirst_eq_some_iff {m m' : OrderedMap κ α before} {e : κ × α} :
    m.popFirst = some (e, m') ↔ m.entries = e :: m'.entries := by
  obtain ⟨entries, sorted⟩ := m
  obtain ⟨entries', sorted'⟩ := m'
  cases entries with
  | nil => simp [popFirst]
  | cons b rest => simp [popFirst]

theorem popFirst_eq_none_iff {m : OrderedMap κ α before} : m.popFirst = none ↔ m.entries = [] := by
  obtain ⟨entries, sorted⟩ := m
  cases entries <;> simp [popFirst]

variable [DecidableEq κ]

def erase (m : OrderedMap κ α before) (k : κ) : OrderedMap κ α before :=
  ⟨m.entries.filter fun e => e.1 ≠ k, m.sorted.filter _⟩

theorem mem_of_mem_erase {m : OrderedMap κ α before} {k : κ} {e : κ × α}
    (h : e ∈ (m.erase k).entries) : e ∈ m.entries :=
  List.mem_of_mem_filter h

theorem mem_erase_iff {m : OrderedMap κ α before} {k : κ} {e : κ × α} :
    e ∈ (m.erase k).entries ↔ e ∈ m.entries ∧ e.1 ≠ k := by
  simp [erase]

variable [DecidableRel before]

variable (before) in
/-- Insertion into a list of entries. -/
def insertEntry (k : κ) (a : α) : List (κ × α) → List (κ × α)
  | [] => [(k, a)]
  | (j, b) :: rest =>
    if before k j then (k, a) :: (j, b) :: rest
    else if k = j then (k, a) :: rest
    else (j, b) :: insertEntry k a rest

theorem mem_insertEntry {k : κ} {a : α} {l : List (κ × α)} {e : κ × α} (h : e ∈ insertEntry before k a l) :
    e = (k, a) ∨ e ∈ l := by
  induction l with
  | nil => exact .inl (by simpa [insertEntry] using h)
  | cons first rest ih =>
    simp only [insertEntry] at h
    split at h
    · exact List.mem_cons.mp h
    · split at h
      · rcases List.mem_cons.mp h with rfl | member
        · exact .inl rfl
        · exact .inr (List.mem_cons_of_mem _ member)
      · rcases List.mem_cons.mp h with rfl | member
        · exact .inr List.mem_cons_self
        · exact (ih member).imp id (List.mem_cons_of_mem _)

/-- A key that is not there is added. -/
theorem mem_insertEntry_iff {k : κ} {a : α} {l : List (κ × α)} (fresh : ∀ e ∈ l, e.1 ≠ k) {e : κ × α} :
    e ∈ insertEntry before k a l ↔ e = (k, a) ∨ e ∈ l := by
  constructor
  · exact mem_insertEntry
  · intro h
    induction l with
    | nil => simpa [insertEntry] using h
    | cons first rest ih =>
      have other : k ≠ first.1 := Ne.symm (fresh first List.mem_cons_self)
      simp only [insertEntry, if_neg other]
      split
      · exact List.mem_cons.mpr h
      · rcases h with same | member
        · exact List.mem_cons_of_mem _
            (ih (fun e later => fresh e (List.mem_cons_of_mem _ later)) (.inl same))
        · rcases List.mem_cons.mp member with here | later
          · rw [here]
            exact List.mem_cons_self
          · exact List.mem_cons_of_mem _
              (ih (fun e later => fresh e (List.mem_cons_of_mem _ later)) (.inr later))

theorem insertEntry_sorted [IsTrans κ before] [Std.Trichotomous before] (k : κ) (a : α) {l : List (κ × α)}
    (sorted : l.Pairwise fun a b => before a.1 b.1) :
    (insertEntry before k a l).Pairwise fun a b => before a.1 b.1 := by
  induction l with
  | nil => exact List.pairwise_singleton _ _
  | cons entry rest ih =>
    obtain ⟨ahead, tail⟩ := List.pairwise_cons.mp sorted
    simp only [insertEntry]
    split
    · rename_i less
      refine List.Pairwise.cons (fun e member => ?_) sorted
      rcases List.mem_cons.mp member with rfl | later
      · exact less
      · exact IsTrans.trans _ _ _ less (ahead e later)
    · rename_i notLess
      split
      · rename_i same
        subst same
        exact List.Pairwise.cons ahead tail
      · rename_i other
        have greater : before entry.1 k := by
          by_contra notGreater
          exact other (Std.Trichotomous.trichotomous k entry.1 notLess notGreater)
        refine List.Pairwise.cons (fun e member => ?_) (ih tail)
        rcases mem_insertEntry member with rfl | later
        · exact greater
        · exact ahead e later

variable [IsTrans κ before] [Std.Trichotomous before]

def insert (m : OrderedMap κ α before) (k : κ) (a : α) : OrderedMap κ α before :=
  ⟨insertEntry before k a m.entries, insertEntry_sorted k a m.sorted⟩

theorem mem_of_mem_insert {m : OrderedMap κ α before} {k : κ} {a : α} {e : κ × α}
    (h : e ∈ (m.insert k a).entries) :
    e = (k, a) ∨ e ∈ m.entries :=
  mem_insertEntry h

theorem mem_insert_iff {m : OrderedMap κ α before} {k : κ} {a : α}
    (fresh : ∀ e ∈ m.entries, e.1 ≠ k) {e : κ × α} :
    e ∈ (m.insert k a).entries ↔ e = (k, a) ∨ e ∈ m.entries :=
  mem_insertEntry_iff fresh

end OrderedMap
