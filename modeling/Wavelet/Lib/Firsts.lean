import Mathlib.Data.List.Induction
import Mathlib.Data.List.Nodup

/-!
# First occurrences

A queue that takes each item once holds the first occurrences of what was offered to it:
`List.eraseDups` of the offers. A block of the offers comes first in such a queue exactly
if what was offered before it does not change the order that the block alone would give.
-/

namespace Firsts

variable {α : Type*}

/-- The two lists agree as far as both go. -/
def Agree (l l' : List α) : Prop := l <+: l' ∨ l' <+: l

instance [DecidableEq α] (l l' : List α) : Decidable (Agree l l') := inferInstanceAs (Decidable (_ ∨ _))

theorem Agree.of_prefix {l l' m : List α} (shorter : l <+: m) (agree : Agree m l') : Agree l l' := by
  rcases agree with inside | outside
  · exact .inl (shorter.trans inside)
  · exact List.prefix_or_prefix_of_prefix shorter outside

theorem Agree.cons {l l' : List α} (agree : Agree l l') (a : α) : Agree (a :: l) (a :: l') := by
  rcases agree with inside | outside
  · exact .inl (List.cons_prefix_cons.mpr ⟨rfl, inside⟩)
  · exact .inr (List.cons_prefix_cons.mpr ⟨rfl, outside⟩)

section PerKey

variable {κ : Type*} [DecidableEq κ]

/-- The first item of each key. -/
def firstPerKey (key : α → κ) (l : List α) : List α := l.eraseDupsBy fun a b => key a == key b

theorem firstPerKey_cons (key : α → κ) (a : α) (l : List α) :
    firstPerKey key (a :: l) = a :: firstPerKey key (l.filter fun b => key b ≠ key a) := by
  rw [firstPerKey, List.eraseDupsBy_cons]
  simp [firstPerKey]

/-- An item at the end is a first one if its key is new. -/
theorem firstPerKey_concat (key : α → κ) (l : List α) (a : α) :
    firstPerKey key (l ++ [a]) = firstPerKey key l ++ if key a ∈ l.map key then [] else [a] := by
  induction count : l.length using Nat.strongRecOn generalizing l with
  | _ n ih =>
    cases l with
    | nil => rfl
    | cons b rest =>
      rw [List.cons_append, firstPerKey_cons, firstPerKey_cons, List.filter_append, List.cons_append]
      by_cases same : key a = key b
      · simp [same]
      · have shorter : (rest.filter fun c => key c ≠ key b).length < n := by
          rw [← count, List.length_cons]
          exact Nat.lt_succ_of_le (List.length_filter_le _ _)
        rw [List.filter_singleton]
        rw [decide_eq_true same, cond_true, ih _ shorter _ rfl]
        have listed : key a ∈ (rest.filter fun c => key c ≠ key b).map key ↔ key a ∈ (b :: rest).map key := by
          simp only [List.mem_map, List.mem_filter, List.map_cons, List.mem_cons, same, false_or]
          constructor
          · rintro ⟨c, ⟨member, -⟩, here⟩
            exact ⟨c, member, here⟩
          · rintro ⟨c, member, here⟩
            exact ⟨c, ⟨member, by simpa [here] using same⟩, here⟩
        rw [if_congr listed rfl rfl]

end PerKey

variable [DecidableEq α]

theorem concat_of_mem {l : List α} {a : α} (known : a ∈ l) : (l ++ [a]).eraseDups = l.eraseDups := by
  rw [List.eraseDups_append]
  simp [List.removeAll, known]

theorem concat_of_not_mem {l : List α} {a : α} (unknown : a ∉ l) :
    (l ++ [a]).eraseDups = l.eraseDups ++ [a] := by
  rw [List.eraseDups_append]
  simp [List.removeAll, unknown, List.eraseDups_cons]

/-- Picking some of the items and dropping the repetitions can change places. -/
theorem filter_eraseDups (p : α → Bool) (l : List α) : l.eraseDups.filter p = (l.filter p).eraseDups := by
  induction l using List.reverseRecOn with
  | nil => rfl
  | append_singleton l a ih =>
    rw [List.filter_append]
    by_cases known : a ∈ l
    · rw [concat_of_mem known, ih]
      by_cases picked : p a = true
      · have known' : a ∈ l.filter p := List.mem_filter.mpr ⟨known, picked⟩
        rw [List.filter_singleton, picked, cond_true, concat_of_mem known']
      · simp [picked]
    · rw [concat_of_not_mem known, List.filter_append, ih]
      by_cases picked : p a = true
      · have unknown' : a ∉ l.filter p := fun member => known (List.mem_filter.mp member).1
        rw [List.filter_singleton, picked, cond_true, concat_of_not_mem unknown']
      · simp [picked]

/-- The first occurrences of a block after another. -/
theorem eraseDups_removeAll (l m : List α) :
    (l.removeAll m).eraseDups = l.eraseDups.removeAll m.eraseDups := by
  unfold List.removeAll
  rw [← filter_eraseDups]
  apply List.filter_congr
  intro a _
  simp [List.mem_eraseDups]

theorem nodup_eraseDups (l : List α) : l.eraseDups.Nodup := by
  induction l using List.reverseRecOn with
  | nil => exact List.nodup_nil
  | append_singleton l a ih =>
    by_cases known : a ∈ l
    · rwa [concat_of_mem known]
    · rw [concat_of_not_mem known]
      refine List.nodup_append.mpr ⟨ih, List.nodup_singleton a, fun b earlier c last same => known ?_⟩
      rw [List.mem_singleton] at last
      rw [← last, ← same]
      exact List.mem_eraseDups.mp earlier

/-- What comes later adds to the end. -/
theorem eraseDups_prefix_append (l l' : List α) : l.eraseDups <+: (l ++ l').eraseDups := by
  rw [List.eraseDups_append]
  exact List.prefix_append ..

/-- Items that the block would take first anyway do not change it. -/
theorem eraseDups_append_of_prefix {before block : List α} (first : before.eraseDups <+: block.eraseDups) :
    (before ++ block).eraseDups = block.eraseDups := by
  obtain ⟨rest, split⟩ := first
  have once := nodup_eraseDups block
  rw [← split, List.nodup_append] at once
  obtain ⟨-, -, apart⟩ := once
  have others : (block.removeAll before).eraseDups = rest := by
    unfold List.removeAll
    rw [← filter_eraseDups, ← split, List.filter_append]
    have none : before.eraseDups.filter (fun x => !before.elem x) = [] := by
      rw [List.filter_eq_nil_iff]
      intro a member
      simpa using List.mem_eraseDups.mp member
    have all : rest.filter (fun x => !before.elem x) = rest := by
      rw [List.filter_eq_self]
      intro a member
      simp only [Bool.not_eq_true', List.elem_eq_contains, List.contains_eq_mem, decide_eq_false_iff_not]
      intro earlier
      exact apart a (List.mem_eraseDups.mpr earlier) a member rfl
    rw [none, all, List.nil_append]
  rw [List.eraseDups_append, others, split]

/-- A block comes first exactly if the items before it agree with it. -/
theorem prefix_eraseDups_iff {before block after : List α} :
    block.eraseDups <+: (before ++ block ++ after).eraseDups ↔ Agree before.eraseDups block.eraseDups := by
  have first : before.eraseDups <+: (before ++ block ++ after).eraseDups := by
    rw [List.append_assoc]
    exact eraseDups_prefix_append ..
  constructor
  · intro inside
    exact List.prefix_or_prefix_of_prefix first inside
  · rintro (shorter | longer)
    · rw [← eraseDups_append_of_prefix shorter]
      exact eraseDups_prefix_append ..
    · exact longer.trans first

end Firsts
