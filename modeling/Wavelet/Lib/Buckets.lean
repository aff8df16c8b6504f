import Mathlib.Data.List.Basic

/-!
# Bucket lists

A multi-queue is a list of FIFO queues, one for each rank. `bucket bs d` reads the
queue of rank `d` (ranks past the end read as empty), `List.set` replaces it, and
`flatten` forgets the ranks. The lemmas say what replacing one bucket does to the
other buckets, to membership, to the number of occurrences and to the total length.
-/

namespace Buckets

variable {α : Type*}

/-- The queue of rank `d`; a rank past the end is empty. -/
def bucket (bs : List (List α)) (d : Nat) : List α := bs.getD d []

theorem bucket_eq_getElem {bs : List (List α)} {d : Nat} (h : d < bs.length) : bucket bs d = bs[d] := by
  simp [bucket, h]

theorem bucket_eq_nil_of_length_le {bs : List (List α)} {d : Nat} (h : bs.length ≤ d) : bucket bs d = [] := by
  simp [bucket, h]

theorem lt_length_of_mem_bucket {bs : List (List α)} {d : Nat} {a : α} (h : a ∈ bucket bs d) :
    d < bs.length := by
  by_contra past
  rw [bucket_eq_nil_of_length_le (by omega)] at h
  cases h

theorem bucket_set {bs : List (List α)} {d : Nat} (h : d < bs.length) (q : List α) (e : Nat) :
    bucket (bs.set d q) e = if e = d then q else bucket bs e := by
  simp only [bucket, List.getD_eq_getElem?_getD, List.getElem?_set]
  by_cases same : d = e
  · subst same; simp [h]
  · simp [same, Ne.symm same]

theorem bucket_grow (bs : List (List α)) (n d : Nat) :
    bucket (bs ++ List.replicate n []) d = bucket bs d := by
  simp only [bucket, List.getD_eq_getElem?_getD, List.getElem?_append, List.getElem?_replicate]
  split
  · rfl
  · rename_i past
    rw [List.getElem?_eq_none (by omega : bs.length ≤ d)]
    split <;> rfl

theorem mem_flatten_iff {bs : List (List α)} {a : α} : a ∈ bs.flatten ↔ ∃ d, a ∈ bucket bs d := by
  rw [List.mem_flatten]
  constructor
  · rintro ⟨q, member, inside⟩
    obtain ⟨d, bound, rfl⟩ := List.mem_iff_getElem.mp member
    exact ⟨d, by rwa [bucket_eq_getElem bound]⟩
  · rintro ⟨d, inside⟩
    have bound := lt_length_of_mem_bucket inside
    rw [bucket_eq_getElem bound] at inside
    exact ⟨bs[d], List.getElem_mem bound, inside⟩

theorem flatten_eq_nil_iff {bs : List (List α)} : bs.flatten = [] ↔ ∀ d, bucket bs d = [] := by
  constructor
  · intro empty d
    apply List.eq_nil_iff_forall_not_mem.mpr
    intro a inside
    have := mem_flatten_iff.mpr ⟨d, inside⟩
    rw [empty] at this
    cases this
  · intro empty
    apply List.eq_nil_iff_forall_not_mem.mpr
    intro a inside
    obtain ⟨d, inside⟩ := mem_flatten_iff.mp inside
    rw [empty d] at inside
    cases inside

@[simp] theorem flatten_grow (bs : List (List α)) (n : Nat) :
    (bs ++ List.replicate n []).flatten = bs.flatten := by
  simp

/-- Replacing one bucket exchanges its occurrences for the new ones. -/
theorem count_flatten_set [DecidableEq α] {bs : List (List α)} {d : Nat} (h : d < bs.length)
    (q : List α) (a : α) :
    (bs.set d q).flatten.count a + (bucket bs d).count a = bs.flatten.count a + q.count a := by
  induction bs generalizing d with
  | nil => cases h
  | cons b bs ih =>
    cases d with
    | zero => simp [bucket]; omega
    | succ d =>
      have rest := ih (d := d) (by simpa using h)
      simp only [bucket, List.getD_cons_succ, List.set_cons_succ, List.flatten_cons,
        List.count_append] at rest ⊢
      omega

/-- Replacing one bucket exchanges its length for the new one. -/
theorem length_flatten_set {bs : List (List α)} {d : Nat} (h : d < bs.length) (q : List α) :
    (bs.set d q).flatten.length + (bucket bs d).length = bs.flatten.length + q.length := by
  induction bs generalizing d with
  | nil => cases h
  | cons b bs ih =>
    cases d with
    | zero => simp [bucket]; omega
    | succ d =>
      have rest := ih (d := d) (by simpa using h)
      simp only [bucket, List.getD_cons_succ, List.set_cons_succ, List.flatten_cons,
        List.length_append] at rest ⊢
      omega

end Buckets
