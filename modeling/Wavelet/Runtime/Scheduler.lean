import Wavelet.Lib.Buckets

/-!
# The scheduler

`Scheduler` of `scheduler.rs`: one FIFO queue for each depth, a cursor that only moves
down during a pass and a count of the entries left. `schedule` refuses a depth above the
cursor, and indexing the queue vector past its end panics. `pop` walks the cursor to the
next entry, and resets it once nothing is left.
-/

namespace Wavelet
open Buckets

abbrev NodeIndex := Nat

/-- How a call of `schedule` can fail: it returns `SchedulerError`, or it panics on
`self.multi_queue[depth]`. -/
inductive ScheduleFailure where
  | schedulerError
  | indexOutOfBounds
  deriving DecidableEq, Repr

structure Scheduler where
  multiQueue : List (List NodeIndex)
  currDepth : Nat
  pendingEvents : Nat
  deriving DecidableEq, Repr

namespace Scheduler

def new : Scheduler := ⟨[], 0, 0⟩

def hasPendingEvent (s : Scheduler) : Bool := 0 < s.pendingEvents

def resize (s : Scheduler) (maxDepth : Nat) : Scheduler :=
  { s with multiQueue := s.multiQueue ++ List.replicate (maxDepth - s.multiQueue.length) [] }

/-- `required_len = depth + 1`; `resize` is only called to grow. -/
def enableDepth (s : Scheduler) (depth : Nat) : Scheduler :=
  if s.multiQueue.length < depth + 1 then s.resize (depth + 1) else s

def schedule (s : Scheduler) (nodeIndex : NodeIndex) (depth : Nat) : Except ScheduleFailure Scheduler :=
  if depth < s.currDepth then .error .schedulerError
  else if s.multiQueue.length ≤ depth then .error .indexOutOfBounds
  else .ok { s with
    multiQueue := s.multiQueue.set depth (bucket s.multiQueue depth ++ [nodeIndex])
    pendingEvents := s.pendingEvents + 1 }

/-- The `while` loop of `pop`; the first argument bounds the depths left to visit. -/
def popLoop : Nat → Scheduler → Option NodeIndex × Scheduler
  | 0, s => (none, { s with currDepth := 0 })
  | n + 1, s =>
    if s.currDepth < s.multiQueue.length ∧ s.hasPendingEvent then
      match bucket s.multiQueue s.currDepth with
      | item :: rest => (some item, { s with
          multiQueue := s.multiQueue.set s.currDepth rest
          pendingEvents := s.pendingEvents - 1 })
      | [] => popLoop n { s with currDepth := s.currDepth + 1 }
    else (none, { s with currDepth := 0 })

def pop (s : Scheduler) : Option NodeIndex × Scheduler := s.popLoop (s.multiQueue.length - s.currDepth + 1)

/-- The nodes queued for depth `d`. -/
def queue (s : Scheduler) (d : Nat) : List NodeIndex := bucket s.multiQueue d

/-- Everything queued, lowest depth first. -/
def entries (s : Scheduler) : List NodeIndex := s.multiQueue.flatten

/-- The count is right and nothing waits above the cursor. -/
structure WF (s : Scheduler) : Prop where
  counted : s.pendingEvents = s.entries.length
  floor : ∀ d, d < s.currDepth → s.queue d = []

/-- The state between two passes: cursor at the top, nothing queued. -/
structure AtRest (s : Scheduler) : Prop where
  top : s.currDepth = 0
  none_pending : s.pendingEvents = 0
  drained : ∀ d, s.queue d = []

theorem mem_entries_iff {s : Scheduler} {i : NodeIndex} : i ∈ s.entries ↔ ∃ d, i ∈ s.queue d :=
  mem_flatten_iff

theorem AtRest.entries_nil {s : Scheduler} (h : s.AtRest) : s.entries = [] := flatten_eq_nil_iff.mpr h.drained

theorem WF.atRest {s : Scheduler} (h : s.WF) (top : s.currDepth = 0) (empty : s.pendingEvents = 0) :
    s.AtRest := by
  have nothing : s.entries = [] := List.eq_nil_of_length_eq_zero (by rw [← h.counted, empty])
  exact ⟨top, empty, flatten_eq_nil_iff.mp nothing⟩

theorem new_wf : new.WF := ⟨rfl, fun _ _ => rfl⟩

theorem AtRest.wf {s : Scheduler} (h : s.AtRest) : s.WF :=
  ⟨by rw [h.none_pending, h.entries_nil]; rfl, fun d _ => h.drained d⟩

/-! ## Growing the queue vector -/

@[simp] theorem enableDepth_currDepth (s : Scheduler) (d : Nat) :
    (s.enableDepth d).currDepth = s.currDepth := by
  unfold enableDepth resize; split <;> rfl

@[simp] theorem enableDepth_pendingEvents (s : Scheduler) (d : Nat) :
    (s.enableDepth d).pendingEvents = s.pendingEvents := by
  unfold enableDepth resize; split <;> rfl

@[simp] theorem enableDepth_queue (s : Scheduler) (d e : Nat) : (s.enableDepth d).queue e = s.queue e := by
  unfold enableDepth resize queue
  split
  · exact bucket_grow ..
  · rfl

@[simp] theorem enableDepth_entries (s : Scheduler) (d : Nat) : (s.enableDepth d).entries = s.entries := by
  unfold enableDepth resize entries
  split
  · exact flatten_grow ..
  · rfl

theorem enableDepth_length (s : Scheduler) (d : Nat) :
    (s.enableDepth d).multiQueue.length = max s.multiQueue.length (d + 1) := by
  unfold enableDepth resize
  split
  · simp only [List.length_append, List.length_replicate]; omega
  · omega

theorem WF.enableDepth {s : Scheduler} (h : s.WF) (d : Nat) : (s.enableDepth d).WF := by
  constructor
  · simpa using h.counted
  · intro e above
    simpa using h.floor e (by simpa using above)

/-! ## What `schedule` does -/

/-- The state after an accepted call. -/
def enqueue (s : Scheduler) (i : NodeIndex) (d : Nat) : Scheduler :=
  { s with multiQueue := s.multiQueue.set d (s.queue d ++ [i]), pendingEvents := s.pendingEvents + 1 }

theorem schedule_eq_ok_iff {s s' : Scheduler} {i : NodeIndex} {d : Nat} :
    s.schedule i d = .ok s' ↔ s.currDepth ≤ d ∧ d < s.multiQueue.length ∧ s' = s.enqueue i d := by
  unfold schedule
  split
  · simp; omega
  · split
    · simp; omega
    · simp only [Except.ok.injEq]
      exact ⟨fun h => ⟨by omega, by omega, h.symm⟩, fun h => h.2.2.symm⟩

theorem schedule_eq_refused_iff {s : Scheduler} {i : NodeIndex} {d : Nat} :
    s.schedule i d = .error .schedulerError ↔ d < s.currDepth := by
  unfold schedule
  split
  · simp [*]
  · split <;> simp [*]

theorem schedule_eq_outOfBounds_iff {s : Scheduler} {i : NodeIndex} {d : Nat} :
    s.schedule i d = .error .indexOutOfBounds ↔ s.currDepth ≤ d ∧ s.multiQueue.length ≤ d := by
  unfold schedule
  split
  · simp; omega
  · split <;> simp <;> omega

@[simp] theorem enqueue_currDepth (s : Scheduler) (i : NodeIndex) (d : Nat) :
    (s.enqueue i d).currDepth = s.currDepth :=
  rfl

@[simp] theorem enqueue_length (s : Scheduler) (i : NodeIndex) (d : Nat) :
    (s.enqueue i d).multiQueue.length = s.multiQueue.length := by
  simp [enqueue]

theorem enqueue_queue {s : Scheduler} {d : Nat} (bound : d < s.multiQueue.length) (i : NodeIndex) (e : Nat) :
    (s.enqueue i d).queue e = if e = d then s.queue d ++ [i] else s.queue e :=
  bucket_set bound ..

theorem enqueue_count {s : Scheduler} {d : Nat} (bound : d < s.multiQueue.length) (i j : NodeIndex) :
    (s.enqueue i d).entries.count j = s.entries.count j + if i = j then 1 else 0 := by
  have := count_flatten_set bound (s.queue d ++ [i]) j
  simp only [List.count_append, List.count_singleton, beq_iff_eq, queue] at this
  simp only [enqueue, entries, queue]
  omega

theorem enqueue_length_entries {s : Scheduler} {d : Nat} (bound : d < s.multiQueue.length) (i : NodeIndex) :
    (s.enqueue i d).entries.length = s.entries.length + 1 := by
  have lengths := length_flatten_set bound (bucket s.multiQueue d ++ [i])
  rw [List.length_append, List.length_singleton] at lengths
  show (s.multiQueue.set d (bucket s.multiQueue d ++ [i])).flatten.length = s.multiQueue.flatten.length + 1
  omega

theorem mem_enqueue {s : Scheduler} {d : Nat} (bound : d < s.multiQueue.length) (i j : NodeIndex) :
    j ∈ (s.enqueue i d).entries ↔ j ∈ s.entries ∨ j = i := by
  rw [← List.count_pos_iff, enqueue_count bound, ← List.count_pos_iff]
  split <;> simp_all [eq_comm]

theorem WF.enqueue {s : Scheduler} (h : s.WF) {i : NodeIndex} {d : Nat} (low : s.currDepth ≤ d)
    (bound : d < s.multiQueue.length) : (s.enqueue i d).WF := by
  constructor
  · have := length_flatten_set bound (s.queue d ++ [i])
    have := h.counted
    simp only [List.length_append, List.length_singleton, queue, Scheduler.enqueue, entries] at *
    omega
  · intro e above
    rw [enqueue_currDepth] at above
    rw [enqueue_queue bound, if_neg (by omega)]
    exact h.floor e above

/-! ## What `pop` does -/

/-- A pop that returns an entry takes the first one of the lowest depth in use and
leaves the cursor there. -/
structure Popped (s : Scheduler) (i : NodeIndex) (s' : Scheduler) : Prop where
  low : s.currDepth ≤ s'.currDepth
  bound : s'.currDepth < s.multiQueue.length
  above : ∀ d, d < s'.currDepth → s.queue d = []
  first : s.queue s'.currDepth = i :: s'.queue s'.currDepth
  rest : ∀ d, d ≠ s'.currDepth → s'.queue d = s.queue d
  length : s'.multiQueue.length = s.multiQueue.length
  pending : s'.pendingEvents = s.pendingEvents - 1

theorem popLoop_some {n : Nat} {s s' : Scheduler} {i : NodeIndex}
    (floor : ∀ d, d < s.currDepth → s.queue d = []) (h : s.popLoop n = (some i, s')) : s.Popped i s' := by
  induction n generalizing s with
  | zero => simp [popLoop] at h
  | succ n ih =>
    unfold popLoop at h
    split at h
    · rename_i more
      split at h
      · rename_i item rest front
        simp only [Prod.mk.injEq, Option.some.injEq] at h
        obtain ⟨rfl, rfl⟩ := h
        have here : (s.multiQueue.set s.currDepth rest).getD s.currDepth [] = rest := by
          simpa [bucket] using bucket_set more.1 rest s.currDepth
        refine ⟨Nat.le_refl _, more.1, floor, ?_, ?_, by simp, rfl⟩
        · simp only [queue, bucket] at front ⊢
          rw [here, front]
        · intro d other
          simpa [queue, other] using bucket_set more.1 rest d
      · rename_i front
        have lower := ih (s := { s with currDepth := s.currDepth + 1 }) (fun d above => by
          rcases Nat.lt_succ_iff_lt_or_eq.mp above with less | rfl
          · exact floor d less
          · exact front) h
        exact ⟨by have := lower.low; simp only at this; omega, lower.bound, lower.above, lower.first,
          lower.rest, lower.length, lower.pending⟩
    · simp at h

theorem popLoop_none {n : Nat} {s s' : Scheduler} (h : s.popLoop n = (none, s')) :
    s' = { s with currDepth := 0 } := by
  induction n generalizing s with
  | zero => simpa [popLoop] using h.symm
  | succ n ih =>
    unfold popLoop at h
    split at h
    · split at h
      · simp at h
      · have shape := ih h
        exact shape
    · simpa using h.symm

/-- The loop gives up only when no entry is left. -/
theorem popLoop_exhausts {n : Nat} {s s' : Scheduler} (wf : s.WF)
    (fuel : s.multiQueue.length - s.currDepth < n) (h : s.popLoop n = (none, s')) : s.pendingEvents = 0 := by
  induction n generalizing s with
  | zero => omega
  | succ n ih =>
    unfold popLoop at h
    split at h
    · rename_i more
      split at h
      · simp at h
      · rename_i front
        refine ih (s := { s with currDepth := s.currDepth + 1 }) ⟨wf.counted, fun d above => ?_⟩ ?_ h
        · rcases Nat.lt_succ_iff_lt_or_eq.mp above with less | rfl
          · exact wf.floor d less
          · exact front
        · simp only; omega
    · rename_i stop
      simp only [not_and_or, Nat.not_lt] at stop
      rcases stop with past | idle
      · have nothing : s.entries = [] := flatten_eq_nil_iff.mpr fun d => by
          by_cases above : d < s.currDepth
          · exact wf.floor d above
          · exact bucket_eq_nil_of_length_le (by omega)
        rw [wf.counted, nothing]; rfl
      · simpa [hasPendingEvent] using idle

theorem popLoop_length {n : Nat} {s s' : Scheduler} {o : Option NodeIndex} (h : s.popLoop n = (o, s')) :
    s'.multiQueue.length = s.multiQueue.length := by
  induction n generalizing s with
  | zero => cases h; rfl
  | succ n ih =>
    unfold popLoop at h
    split at h
    · split at h
      · cases h; exact List.length_set ..
      · exact ih (s := { s with currDepth := s.currDepth + 1 }) h
    · cases h; rfl

theorem pop_length {s s' : Scheduler} {o : Option NodeIndex} (h : s.pop = (o, s')) :
    s'.multiQueue.length = s.multiQueue.length :=
  popLoop_length h

theorem pop_some {s s' : Scheduler} {i : NodeIndex} (wf : s.WF) (h : s.pop = (some i, s')) : s.Popped i s' :=
  popLoop_some wf.floor h

theorem pop_none {s s' : Scheduler} (wf : s.WF) (h : s.pop = (none, s')) : s'.AtRest ∧ s.entries = [] := by
  have shape := popLoop_none h
  have empty := popLoop_exhausts wf (Nat.lt_succ_self _) h
  have nothing : s.entries = [] := List.eq_nil_of_length_eq_zero (by rw [← wf.counted, empty])
  subst shape
  exact ⟨⟨rfl, empty, flatten_eq_nil_iff.mp nothing⟩, nothing⟩

namespace Popped

variable {s s' : Scheduler} {i : NodeIndex}

theorem entries_eq_set (h : s.Popped i s') :
    s'.multiQueue = s.multiQueue.set s'.currDepth (s'.queue s'.currDepth) := by
  apply List.ext_getElem (by rw [List.length_set, h.length])
  intro d bound bound'
  rw [← bucket_eq_getElem bound, ← bucket_eq_getElem bound', bucket_set h.bound]
  split
  · rename_i same; subst same; rfl
  · rename_i other; exact h.rest d other

theorem count (h : s.Popped i s') (j : NodeIndex) :
    s.entries.count j = s'.entries.count j + if i = j then 1 else 0 := by
  have := count_flatten_set h.bound (s'.queue s'.currDepth) j
  rw [← h.entries_eq_set] at this
  have first := h.first
  simp only [queue] at first
  rw [first, List.count_cons] at this
  simp only [entries, queue, beq_iff_eq] at *
  omega

theorem mem_iff (h : s.Popped i s') (j : NodeIndex) : j ∈ s.entries ↔ j ∈ s'.entries ∨ j = i := by
  rw [← List.count_pos_iff, h.count, ← List.count_pos_iff]
  split <;> simp_all [eq_comm]

theorem mem_queue_of (h : s.Popped i s') {j : NodeIndex} {d : Nat} (member : j ∈ s'.queue d) :
    j ∈ s.queue d := by
  by_cases same : d = s'.currDepth
  · subst same; rw [h.first]; exact List.mem_cons_of_mem _ member
  · rwa [← h.rest d same]

theorem length_entries (h : s.Popped i s') : s.entries.length = s'.entries.length + 1 := by
  have := length_flatten_set h.bound (s'.queue s'.currDepth)
  rw [← h.entries_eq_set] at this
  have first := h.first
  simp only [queue] at first
  rw [first, List.length_cons] at this
  simp only [entries, queue] at *
  omega

theorem wf (h : s.Popped i s') (wf : s.WF) : s'.WF := by
  constructor
  · rw [h.pending, wf.counted, h.length_entries]; rfl
  · intro d above
    rw [h.rest d (by omega)]
    exact h.above d above

end Popped

end Scheduler

end Wavelet
