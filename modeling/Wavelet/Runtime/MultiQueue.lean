import Mathlib.Order.Nat
import Wavelet.Lib.FloorQueue
import Wavelet.Runtime.Scheduler

/-!
# The scheduler as a priority queue

What the multi-queue of `scheduler.rs` is for: the nodes wait in the order of their depth
and, within a depth, in the order of their arrival, and while a pass goes on nothing is let
in above the depth it has reached. `Agenda` is that queue without the vector of queues, the
cursor and the counter. A sequence of calls gives the same answers on both.
-/

namespace Wavelet
open Buckets

/-- A call of the scheduler; depths are `u32`. -/
inductive SchedulerOp where
  | enableDepth (depth : UInt32)
  | schedule (nodeIndex : NodeIndex) (depth : UInt32)
  | pop
  deriving DecidableEq, Repr

/-- What a call gives back. -/
inductive Answer where
  | enabled
  | scheduled
  | refused
  | popped (item : Option NodeIndex)
  | panicked
  deriving DecidableEq, Repr

namespace Scheduler

/-- `enable_depth` with its addition on `u32`. Without overflow checks `u32::MAX` enables
nothing; with them that call does not return. -/
def enableDepth32 (s : Scheduler) (depth : UInt32) : Scheduler :=
  let requiredLen := depth + 1
  if s.multiQueue.length < requiredLen.toNat then s.resize requiredLen.toNat else s

/-- The loop of `pop` with the debug assertions and the subtraction from `pending_events`;
`none` when one of them fails. -/
def checkedLoop : Nat → Scheduler → Option (Option NodeIndex × Scheduler)
  | 0, s => if s.pendingEvents = 0 then some (none, { s with currDepth := 0 }) else none
  | n + 1, s =>
    if s.currDepth < s.multiQueue.length ∧ s.hasPendingEvent then
      match bucket s.multiQueue s.currDepth with
      | item :: rest =>
        if 0 < s.pendingEvents then
          some (some item, { s with
            multiQueue := s.multiQueue.set s.currDepth rest
            pendingEvents := s.pendingEvents - 1 })
        else none
      | [] => checkedLoop n { s with currDepth := s.currDepth + 1 }
    else if s.pendingEvents = 0 then some (none, { s with currDepth := 0 })
    else none

def checkedPop (s : Scheduler) : Option (Option NodeIndex × Scheduler) :=
  s.checkedLoop (s.multiQueue.length - s.currDepth + 1)

def call (s : Scheduler) : SchedulerOp → Answer × Scheduler
  | .enableDepth depth => (.enabled, s.enableDepth32 depth)
  | .schedule i depth =>
    match s.schedule i depth.toNat with
    | .ok s' => (.scheduled, s')
    | .error .schedulerError => (.refused, s)
    | .error .indexOutOfBounds => (.panicked, s)
  | .pop =>
    match s.checkedPop with
    | some (item, s') => (.popped item, s')
    | none => (.panicked, s)

/-- The answers to a sequence of calls, and the state after it. -/
def calls (s : Scheduler) : List SchedulerOp → List Answer × Scheduler
  | [] => ([], s)
  | op :: rest =>
    let (answer, s) := s.call op
    let (answers, s) := s.calls rest
    (answer :: answers, s)

end Scheduler

/-! ## The abstract queue -/

/-- The nodes that wait, with their depths, and the depth the pass has reached. -/
abbrev Agenda := FloorQueue Nat NodeIndex

namespace Agenda

def call (q : Agenda) : SchedulerOp → Answer × Agenda
  | .enableDepth _ => (.enabled, q)
  | .schedule i depth =>
    match FloorQueue.push q depth.toNat i with
    | some q' => (.scheduled, q')
    | none => (.refused, q)
  | .pop =>
    match FloorQueue.pop q with
    | (item, q') => (.popped (item.map (·.2)), q')

def calls (q : Agenda) : List SchedulerOp → List Answer × Agenda
  | [] => ([], q)
  | op :: rest =>
    let (answer, q) := call q op
    let (answers, q) := calls q rest
    (answer :: answers, q)

end Agenda

/-! ## Calls the executor may make -/

/-- The call enables depth `d`. -/
def SchedulerOp.Enables (d : UInt32) : SchedulerOp → Prop
  | .enableDepth e => d < e + 1
  | _ => False

instance (d : UInt32) : DecidablePred (SchedulerOp.Enables d)
  | .enableDepth e => inferInstanceAs (Decidable (d < e + 1))
  | .schedule .. | .pop => .isFalse id

/-- The calls `done` have enabled the depth that the call schedules at. -/
def SchedulerOp.Ready (done : List SchedulerOp) : SchedulerOp → Prop
  | .schedule _ d => ∃ before ∈ done, before.Enables d
  | _ => True

instance (done : List SchedulerOp) : DecidablePred (SchedulerOp.Ready done)
  | .schedule _ d => inferInstanceAs (Decidable (∃ before ∈ done, before.Enables d))
  | .enableDepth _ | .pop => .isTrue trivial

/-- After the calls `done`, every call of `ops` schedules at a depth that is enabled by then. -/
def WellCalled (done : List SchedulerOp) : List SchedulerOp → Prop
  | [] => True
  | op :: rest => op.Ready done ∧ WellCalled (op :: done) rest

instance decidableWellCalled : (done ops : List SchedulerOp) → Decidable (WellCalled done ops)
  | _, [] => .isTrue trivial
  | done, op :: rest =>
    have := decidableWellCalled (op :: done) rest
    inferInstanceAs (Decidable (op.Ready done ∧ WellCalled (op :: done) rest))

/-- The nodes let in by a sequence of calls with these answers. -/
def accepted : List SchedulerOp → List Answer → List NodeIndex
  | .schedule i _ :: ops, .scheduled :: answers => i :: accepted ops answers
  | _ :: ops, _ :: answers => accepted ops answers
  | _, _ => []

/-- The nodes handed out. -/
def handedOut (answers : List Answer) : List NodeIndex :=
  answers.filterMap fun
    | .popped item => item
    | _ => none

namespace Scheduler

/-- The scheduler counts its entries, has nothing above the cursor, and holds the agenda's
nodes of each depth in the agenda's order. -/
structure Represents (s : Scheduler) (q : Agenda) : Prop where
  wf : s.WF
  cursor : s.currDepth = q.floor
  lanes : ∀ d, s.queue d = q.lane d

/-! ## One call -/

theorem enableDepth32_eq (s : Scheduler) (d : UInt32) :
    s.enableDepth32 d = s ∨ s.enableDepth32 d = s.enableDepth d.toNat := by
  unfold enableDepth32 enableDepth
  simp only [UInt32.toNat_add, UInt32.reduceToNat]
  by_cases fits : d.toNat + 1 < 2 ^ 32
  · right
    rw [Nat.mod_eq_of_lt fits]
  · left
    have top : d.toNat + 1 = 2 ^ 32 := by
      have := d.toNat_lt
      omega
    rw [top, Nat.mod_self, if_neg (Nat.not_lt_zero _)]

theorem length_enableDepth32 (s : Scheduler) (d : UInt32) :
    s.multiQueue.length ≤ (s.enableDepth32 d).multiQueue.length ∧
      (d + 1).toNat ≤ (s.enableDepth32 d).multiQueue.length := by
  unfold enableDepth32 resize
  dsimp only
  split
  · rw [List.length_append, List.length_replicate]
    omega
  · omega

/-- On a well-formed scheduler the assertions hold and the counter does not underflow. -/
theorem checkedLoop_eq {n : Nat} {s : Scheduler} (wf : s.WF) (fuel : s.multiQueue.length - s.currDepth < n) :
    s.checkedLoop n = some (s.popLoop n) := by
  induction n generalizing s with
  | zero => omega
  | succ n ih =>
    rw [checkedLoop, popLoop]
    by_cases more : s.currDepth < s.multiQueue.length ∧ s.hasPendingEvent
    · rw [if_pos more, if_pos more]
      cases front : bucket s.multiQueue s.currDepth with
      | cons item rest =>
        have pending : 0 < s.pendingEvents := of_decide_eq_true more.2
        exact if_pos pending
      | nil =>
        refine ih (s := { s with currDepth := s.currDepth + 1 }) ⟨wf.counted, fun d above => ?_⟩ ?_
        · rcases Nat.lt_succ_iff_lt_or_eq.mp above with less | rfl
          · exact wf.floor d less
          · exact front
        · simp only
          omega
    · have none_left : s.popLoop (n + 1) = (none, { s with currDepth := 0 }) := by rw [popLoop, if_neg more]
      rw [if_neg more, if_neg more, if_pos (popLoop_exhausts wf fuel none_left)]

theorem checkedPop_eq {s : Scheduler} (wf : s.WF) : s.checkedPop = some s.pop :=
  checkedLoop_eq wf (Nat.lt_succ_self _)

namespace Represents

variable {s : Scheduler} {q : Agenda}

theorem enableDepth32 (r : s.Represents q) (d : UInt32) : (s.enableDepth32 d).Represents q := by
  rcases s.enableDepth32_eq d with same | grown
  · rw [same]
    exact r
  · rw [grown]
    constructor
    case wf => exact r.wf.enableDepth d.toNat
    case cursor => rw [enableDepth_currDepth, r.cursor]
    case lanes =>
      intro e
      rw [enableDepth_queue, r.lanes]

/-- Both let a node in at the same depths, behind the others of its depth. -/
theorem schedule (r : s.Represents q) (i : NodeIndex) {d : UInt32} (bound : d.toNat < s.multiQueue.length) :
    (s.call (.schedule i d)).1 = (Agenda.call q (.schedule i d)).1 ∧
      (s.call (.schedule i d)).2.Represents (Agenda.call q (.schedule i d)).2 := by
  by_cases low : s.currDepth ≤ d.toNat
  · have goes : s.schedule i d.toNat = .ok (s.enqueue i d.toNat) := schedule_eq_ok_iff.mpr ⟨low, bound, rfl⟩
    cases pushed : FloorQueue.push q d.toNat i with
    | none =>
      have below := FloorQueue.push_eq_none_iff.mp pushed
      rw [← r.cursor] at below
      omega
    | some q' =>
      obtain ⟨-, -, floor⟩ := FloorQueue.push_eq_some pushed
      simp only [call, Agenda.call, goes, pushed]
      refine ⟨trivial, r.wf.enqueue low bound, ?_, fun e => ?_⟩
      · show s.currDepth = q'.floor
        rw [floor, r.cursor]
      · show (s.enqueue i d.toNat).queue e = q'.lane e
        rw [enqueue_queue bound, FloorQueue.lane_push pushed, r.lanes, r.lanes]
        by_cases here : e = d.toNat
        · subst here
          rw [if_pos rfl]
        · rw [if_neg here, if_neg (Ne.symm here)]
  · have above : d.toNat < s.currDepth := Nat.lt_of_not_le low
    have refused : s.schedule i d.toNat = .error .schedulerError := schedule_eq_refused_iff.mpr above
    have none : FloorQueue.push q d.toNat i = none :=
      FloorQueue.push_eq_none_iff.mpr (by rw [← r.cursor]; exact above)
    simp only [call, Agenda.call, refused, none]
    exact ⟨trivial, r⟩

/-- Both take the same node, the first of the least depth in use. -/
theorem pop (r : s.Represents q) :
    (s.call .pop).1 = (Agenda.call q .pop).1 ∧ (s.call .pop).2.Represents (Agenda.call q .pop).2 := by
  simp only [call, Agenda.call, checkedPop_eq r.wf]
  cases here : s.pop with
  | mk item s' =>
    cases there : FloorQueue.pop q with
    | mk taken q' =>
      cases item with
      | none =>
        obtain ⟨rests, nothing⟩ := pop_none r.wf here
        have none : q.items = [] := FloorQueue.items_eq_nil_iff.mpr fun d => by
          rw [← r.lanes]
          exact flatten_eq_nil_iff.mp nothing d
        cases taken with
        | none =>
          obtain ⟨-, left, floor⟩ := FloorQueue.pop_eq_none there
          refine ⟨rfl, rests.wf, ?_, fun d => ?_⟩
          · rw [rests.top, floor]
            rfl
          · rw [rests.drained, FloorQueue.items_eq_nil_iff.mp left]
        | some f =>
          have perm := (FloorQueue.pop_eq_some there).1
          rw [none] at perm
          exact absurd perm (List.cons_ne_nil _ _ ∘ List.Perm.eq_nil)
      | some i =>
        have popped := pop_some r.wf here
        have front : q.lane s'.currDepth = i :: s'.queue s'.currDepth := by rw [← r.lanes, popped.first]
        cases taken with
        | none =>
          rw [FloorQueue.items_eq_nil_iff.mp (FloorQueue.pop_eq_none there).1] at front
          cases front
        | some f =>
          obtain ⟨perm, floor, least, lanes⟩ := FloorQueue.pop_eq_some there
          -- the depth of the item is the lowest that has a queue, on both sides
          have depth : f.1 = s'.currDepth := by
            have own := lanes f.1
            rw [if_pos rfl, ← r.lanes] at own
            have down : s'.currDepth ≤ f.1 := by
              by_contra above
              rw [popped.above f.1 (Nat.lt_of_not_le above)] at own
              cases own
            have up : f.1 ≤ s'.currDepth := by
              by_contra below
              rw [FloorQueue.lane_eq_nil_of_lt fun e member => Nat.lt_of_lt_of_le
                (Nat.lt_of_not_le below) (least e member)] at front
              cases front
            omega
          rw [depth] at lanes
          have heads := lanes s'.currDepth
          rw [if_pos rfl, front] at heads
          obtain ⟨node, rest⟩ := List.cons.inj heads
          refine ⟨by rw [Option.map_some, node], popped.wf r.wf, by rw [floor, depth], fun d => ?_⟩
          by_cases same : s'.currDepth = d
          · subst same
            exact rest
          · have others := lanes d
            rw [if_neg same] at others
            rw [popped.rest d (Ne.symm same), r.lanes, others]

end Represents

/-! ## Runs -/

/-- The queue vector covers every depth enabled by the calls `done`. -/
def Covers (s : Scheduler) (done : List SchedulerOp) : Prop :=
  ∀ d : UInt32, (∃ op ∈ done, op.Enables d) → d.toNat < s.multiQueue.length

theorem length_call {s : Scheduler} (wf : s.WF) (op : SchedulerOp) :
    s.multiQueue.length ≤ (s.call op).2.multiQueue.length := by
  cases op with
  | enableDepth d => exact (s.length_enableDepth32 d).1
  | schedule i d =>
    simp only [call]
    split
    · rename_i s' accepted
      obtain ⟨-, -, rfl⟩ := schedule_eq_ok_iff.mp accepted
      exact Nat.le_of_eq (enqueue_length s i d.toNat).symm
    · exact Nat.le_refl _
    · exact Nat.le_refl _
  | pop =>
    simp only [call, checkedPop_eq wf]
    have popped : s.pop = (s.pop.1, s.pop.2) := rfl
    exact Nat.le_of_eq (pop_length popped).symm

theorem Covers.call {s : Scheduler} {done : List SchedulerOp} (covers : s.Covers done) (wf : s.WF)
    (op : SchedulerOp) :
    (s.call op).2.Covers (op :: done) := by
  rintro d ⟨op', member, enables⟩
  rcases List.mem_cons.mp member with rfl | old
  · cases op' with
    | enableDepth e =>
      have below : d.toNat < (e + 1).toNat := UInt32.lt_iff_toNat_lt.mp enables
      exact Nat.lt_of_lt_of_le below (s.length_enableDepth32 e).2
    | schedule i e => cases enables
    | pop => cases enables
  · exact Nat.lt_of_lt_of_le (covers d ⟨op', old, enables⟩) (length_call wf op)

theorem Represents.call {s : Scheduler} {q : Agenda} {done : List SchedulerOp} {op : SchedulerOp}
    (r : s.Represents q) (covers : s.Covers done) (ready : op.Ready done) :
    (s.call op).1 = (Agenda.call q op).1 ∧ (s.call op).2.Represents (Agenda.call q op).2 := by
  cases op with
  | enableDepth d => exact ⟨rfl, r.enableDepth32 d⟩
  | schedule i d => exact r.schedule i (covers d ready)
  | pop => exact r.pop

/-- The abstract queue has no call that panics. -/
theorem call_ne_panicked (q : Agenda) (op : SchedulerOp) : (Agenda.call q op).1 ≠ .panicked := by
  cases op with
  | enableDepth d => simp [Agenda.call]
  | schedule i d =>
    simp only [Agenda.call]
    split <;> simp
  | pop => simp [Agenda.call]

/-- What one call adds to the nodes let in, it adds to those handed out or still waiting. -/
theorem count_call {s : Scheduler} (wf : s.WF) (op : SchedulerOp) (j : NodeIndex) :
    (accepted [op] [(s.call op).1]).count j + s.entries.count j =
      (handedOut [(s.call op).1]).count j + (s.call op).2.entries.count j := by
  cases op with
  | enableDepth d =>
    rcases s.enableDepth32_eq d with same | grown
    · simp [Scheduler.call, accepted, handedOut, same]
    · simp [Scheduler.call, accepted, handedOut, grown]
  | schedule i d =>
    simp only [Scheduler.call]
    split
    · rename_i s' goes
      obtain ⟨-, bound, rfl⟩ := schedule_eq_ok_iff.mp goes
      have more := enqueue_count bound i j
      simp only [accepted, handedOut, List.count_singleton, List.filterMap_cons, List.filterMap_nil,
        List.count_nil, beq_iff_eq]
      omega
    · simp [accepted, handedOut]
    · simp [accepted, handedOut]
  | pop =>
    simp only [Scheduler.call, checkedPop_eq wf]
    cases here : s.pop with
    | mk item s' =>
      cases item with
      | none =>
        obtain ⟨rests, nothing⟩ := pop_none wf here
        simp [accepted, handedOut, nothing, rests.entries_nil]
      | some i =>
        have less := (pop_some wf here).count j
        simp only [accepted, handedOut, List.count_singleton, List.filterMap_cons,
          List.filterMap_nil, List.count_nil, beq_iff_eq]
        omega

theorem accepted_cons (op : SchedulerOp) (ops : List SchedulerOp) (answer : Answer) (answers : List Answer) :
    accepted (op :: ops) (answer :: answers) = accepted [op] [answer] ++ accepted ops answers := by
  cases op <;> cases answer <;> simp [accepted]

theorem handedOut_cons (answer : Answer) (answers : List Answer) :
    handedOut (answer :: answers) = handedOut [answer] ++ handedOut answers :=
  List.filterMap_append (l := [answer])

/-- A run on the scheduler is a run on the agenda. -/
theorem Represents.calls {ops done : List SchedulerOp} {s : Scheduler} {q : Agenda} (r : s.Represents q)
    (covers : s.Covers done) (called : WellCalled done ops) :
    (s.calls ops).1 = (Agenda.calls q ops).1 ∧ (s.calls ops).2.Represents (Agenda.calls q ops).2 ∧
      .panicked ∉ (s.calls ops).1 ∧ ∀ j, (accepted ops (s.calls ops).1).count j + s.entries.count j =
        (handedOut (s.calls ops).1).count j + (s.calls ops).2.entries.count j := by
  induction ops generalizing s q done with
  | nil =>
    refine ⟨rfl, r, List.not_mem_nil, fun j => ?_⟩
    simp [Scheduler.calls, accepted, handedOut]
  | cons op rest ih =>
    obtain ⟨answer, next⟩ := r.call covers called.1
    obtain ⟨answers, last, fine, counts⟩ := ih next (covers.call r.wf op) called.2
    simp only [Scheduler.calls, Agenda.calls]
    refine ⟨by rw [answer, answers], last, ?_, fun j => ?_⟩
    · intro member
      rcases List.mem_cons.mp member with here | later
      · exact call_ne_panicked q op (answer.symm.trans here.symm)
      · exact fine later
    · have first := count_call r.wf op j
      have others := counts j
      rw [accepted_cons, handedOut_cons, List.count_append, List.count_append]
      omega

/-- Called at enabled depths, the scheduler is a stable priority queue with a rising floor: it
gives the answers of that queue and holds its nodes in its order, counts them and keeps none
above the cursor; no call panics; and what it has let in is what it has handed out together
with what waits. -/
theorem multi_queue_is_agenda (ops : List SchedulerOp) (called : WellCalled [] ops) :
    (new.calls ops).1 = (Agenda.calls .empty ops).1 ∧
      (new.calls ops).2.Represents (Agenda.calls .empty ops).2 ∧
      .panicked ∉ (new.calls ops).1 ∧
      (accepted ops (new.calls ops).1).Perm (handedOut (new.calls ops).1 ++ (new.calls ops).2.entries) := by
  have start : new.Represents .empty := ⟨new_wf, rfl, fun _ => rfl⟩
  obtain ⟨answers, last, fine, counts⟩ := start.calls (fun d none => by simp at none) called
  refine ⟨answers, last, fine, List.perm_iff_count.mpr fun j => ?_⟩
  have total := counts j
  rw [List.count_append, ← total]
  rfl

/-- A depth is enabled in the middle of a pass, a node is refused, and the floor drops back
when the last node is gone. -/
theorem pass_is_agenda :
    let ops : List SchedulerOp :=
  [.enableDepth 2, .schedule 7 2, .schedule 5 0, .schedule 6 2, .pop, .pop, .enableDepth 4,
      .schedule 8 1, .schedule 9 4, .pop, .pop, .pop, .schedule 8 1]
    (new.calls ops).1 = [.enabled, .scheduled, .scheduled, .scheduled, .popped (some 5),
    .popped (some 7), .enabled, .refused,
      .scheduled, .popped (some 6), .popped (some 9), .popped none, .scheduled] ∧
    (new.calls ops).2.Represents (Agenda.calls .empty ops).2 :=
  ⟨by decide, (multi_queue_is_agenda _ (by decide)).2.1⟩

end Scheduler
end Wavelet
