import Wavelet.Runtime.Loop

/-!
# The books of a cycle

In a cycle whose epoch is new, a node carries the epoch's stamp exactly if it was offered
to the scheduler in this cycle, and its entries and runs together are those it started with
and one more if it was offered. `Tally` says so, and every event, run and scheduled child
keeps it, as long as no offer is refused. The poll offers the seeds of the cycle.
-/

namespace Wavelet
namespace Executor

variable {W : Type}

/-- `base` was queued before the cycle, `offered` are the indices offered in it. -/
structure Tally (base offered : List NodeIndex) (ex : Executor W) : Prop where
  stamped : ∀ i ctx, ex.graph.nodeWeight i = some ctx → (ctx.schedEpoch = ex.epoch ↔ i ∈ offered)
  counted : ∀ i, ex.scheduler.entries.count i + (ex.runs.map (·.index)).count i =
    base.count i + if i ∈ offered ∧ (ex.graph.nodeWeight i).isSome then 1 else 0

namespace Tally

variable {base offered : List NodeIndex} {ex ex' : Executor W}

/-- A cycle with a new epoch starts with clean books. -/
theorem start (fresh : ∀ i ctx, ex.graph.nodeWeight i = some ctx → ctx.schedEpoch ≠ ex.epoch)
    (idle : ex.runs = []) :
    Tally ex.scheduler.entries [] ex where
  stamped i ctx there := by simp [fresh i ctx there]
  counted i := by simp [idle]

/-- Offering a node that is not refused. -/
theorem offer {i : NodeIndex} {o : Offer} (tally : Tally base offered ex) (h : ex.offer i = some (o, ex'))
    (accepted : o ≠ .refused) : Tally base (offered ++ [i]) ex' := by
  have append : ∀ j, j ∈ offered ++ [i] ↔ j ∈ offered ∨ j = i := fun j => by simp
  rcases offer_cases h with ⟨-, rfl, vacant⟩ | ⟨ctx, there, seen, -, rfl⟩ | ⟨_, -, -, -, rfl, -⟩ |
    ⟨ctx, there, unseen, -, bound, -, rfl⟩
  · constructor
    · intro j w here
      rw [append, tally.stamped j w here, or_iff_left]
      rintro rfl
      rw [vacant] at here
      cases here
    · intro j
      simp only [tally.counted, append]
      by_cases same : j = i
      · subst same; simp [vacant]
      · simp [same]
  · have known := (tally.stamped i ctx there).mp seen
    have same : ∀ j, j ∈ offered ++ [i] ↔ j ∈ offered := fun j => by
      rw [append, or_iff_left_of_imp]
      rintro rfl
      exact known
    exact ⟨fun j w here => by rw [same, tally.stamped j w here], fun j => by simp only [tally.counted, same]⟩
  · exact absurd rfl accepted
  · have unknown : i ∉ offered := fun member => unseen ((tally.stamped i ctx there).mpr member)
    constructor
    · intro j w here
      replace here : (ex.graph.setWeight i { ctx with schedEpoch := ex.epoch }).nodeWeight j = some w := here
      rw [Graph.nodeWeight_setWeight there] at here
      rw [append]
      split at here
      · rename_i same
        cases here
        simp [same]
      · rename_i other
        simp only [other, or_false]
        exact tally.stamped j w here
    · intro j
      have before := tally.counted j
      show (ex.scheduler.enqueue i ctx.depth).entries.count j + (ex.runs.map (·.index)).count j = _
      rw [Scheduler.enqueue_count bound]
      have live : ((ex.graph.setWeight i { ctx with schedEpoch := ex.epoch }).nodeWeight j).isSome =
          (ex.graph.nodeWeight j).isSome := by
        rw [Graph.nodeWeight_setWeight there]
        split
        · rename_i same; subst same; rw [there]; rfl
        · rfl
      simp only [append, live]
      by_cases same : i = j
      · subst same
        simp only [unknown, false_and, if_false] at before
        simp only [there, Option.isSome_some, or_true, and_self, if_true]
        omega
      · simp only [same, Ne.symm same, or_false, if_false]
        exact before

/-- The driver and the trace are not in the books. -/
theorem congr (tally : Tally base offered ex) (graph : ex'.graph = ex.graph) (epoch : ex'.epoch = ex.epoch)
    (scheduler : ex'.scheduler = ex.scheduler) (runs : ex'.runs = ex.runs) : Tally base offered ex' := by
  obtain ⟨stamped, counted⟩ := tally
  constructor
  · rw [graph, epoch]; exact stamped
  · rw [graph, scheduler, runs]; exact counted

/-- At the top of the scheduler nothing is refused. -/
theorem fire {source : Source} {r : Ref} (tally : Tally base offered ex) (h : fire source ex r = .ok ex')
    (top : ex.scheduler.currDepth = 0) : Tally base (offered ++ [r.index]) ex' := by
  obtain ⟨o, mid, took, -, rfl⟩ := fire_ok h
  refine congr (tally.offer took ?_) rfl rfl rfl rfl
  rintro rfl
  rcases offer_cases took with ⟨no, -⟩ | ⟨_, -, -, no, -⟩ | ⟨_, -, -, above, -⟩ | ⟨_, -, -, -, -, no, -⟩
  · cases no
  · cases no
  · rw [top] at above
    cases above
  · cases no

end Tally

/-! ## The poll -/

/-- What can be said of a poll so far: it speaks of the indices offered, survives a change of
the drivers, and every event of a poll that starts at the top keeps it. -/
structure Seeding (p : List NodeIndex → Executor W → Prop) : Prop where
  driver : ∀ {offered ex} (driver : EventDriver), p offered ex → p offered { ex with eventDriver := driver }
  fire : ∀ {offered source r ex ex'}, fire source ex r = .ok ex' → ex.scheduler.currDepth = 0 → p offered ex →
    p (offered ++ [r.index]) ex'

namespace Seeding

variable {p : List NodeIndex → Executor W → Prop} {offered : List NodeIndex} {ex ex' : Executor W}

theorem drain {n : Nat} (seeding : Seeding p) (start : p offered ex) (top : ex.scheduler.currDepth = 0)
    (h : drainNotifications n ex = .ok ex') :
    p (offered ++ (ex.eventDriver.notifications.items.take n).map (·.index)) ex' ∧
      ex'.scheduler.currDepth = 0 ∧ ∃ q, ex'.eventDriver = { ex.eventDriver with notifications := q } := by
  induction n generalizing ex offered with
  | zero => cases h; exact ⟨by simpa using start, top, _, rfl⟩
  | succ n ih =>
    rw [drainNotifications] at h
    split at h
    · rename_i none
      cases h
      rw [BoundedQueue.pop_eq_none_iff] at none
      exact ⟨by simpa [none] using start, top, _, rfl⟩
    · rename_i r queue popped
      obtain ⟨items, -⟩ := BoundedQueue.pop_eq_some_iff.mp popped
      obtain ⟨mid, fired, rest⟩ := Steps.bind_ok h
      have next := seeding.fire fired top (seeding.driver _ start)
      obtain ⟨last, top', q, driver⟩ := ih next ((Steady.of_fire fired).currDepth.trans top) rest
      have same := eventDriver_fire fired
      refine ⟨?_, top', q, by rw [driver, same]⟩
      rw [same] at last
      simpa [items] using last

theorem yields {l : List Ref} (seeding : Seeding p) (start : p offered ex) (top : ex.scheduler.currDepth = 0)
    (h : drainYields l ex = .ok ex') :
    p (offered ++ l.map (·.index)) ex' ∧ ex'.scheduler.currDepth = 0 ∧
      ∃ left, ex'.eventDriver = { ex.eventDriver with yieldDriver := left } := by
  induction l generalizing ex offered with
  | nil => cases h; exact ⟨by simpa using start, top, _, rfl⟩
  | cons r rest ih =>
    obtain ⟨mid, fired, later⟩ := Steps.bind_ok h
    have next := seeding.fire fired top (seeding.driver _ start)
    obtain ⟨last, top', left, driver⟩ := ih next ((Steady.of_fire fired).currDepth.trans top) later
    refine ⟨by simpa using last, top', left, by rw [driver, eventDriver_fire fired]⟩

/-- The loop over the timers stops at the first that is not due, and none after it is. -/
theorem expire {now n : Nat} {timer : TimerDriver} (seeding : Seeding p) (start : p offered ex)
    (top : ex.scheduler.currDepth = 0) (enough : timer.timers.entries.length ≤ n)
    (h : expireTimers now n timer ex = .ok ex') :
    p (offered ++ (timer.due now).map (·.index)) ex' ∧ ex'.scheduler.currDepth = 0 ∧
      ex'.eventDriver.ioDriver = ex.eventDriver.ioDriver := by
  induction n generalizing timer ex offered with
  | zero =>
    cases h
    have none : timer.timers.entries = [] := List.eq_nil_of_length_eq_zero (by omega)
    exact ⟨by simpa [TimerDriver.due, none] using start, top, rfl⟩
  | succ n ih =>
    obtain ⟨early, rfl⟩ | ⟨source, r, rest, mid, popped, due, fired, later⟩ := expireTimers_succ h
    · exact ⟨by simpa [TimerDriver.due_eq_nil early] using start, top, rfl⟩
    · have entries := OrderedMap.popFirst_eq_some_iff.mp popped
      have next := seeding.fire fired top (seeding.driver _ start)
      obtain ⟨last, top', io⟩ := ih next ((Steady.of_fire fired).currDepth.trans top)
        (by rw [entries, List.length_cons] at enough; simpa using enough) later
      refine ⟨?_, top', by rw [io, eventDriver_fire fired]⟩
      simpa [TimerDriver.due_cons popped due] using last

theorem io {d : IoDriver} {events : List IoEvent} (seeding : Seeding p) (start : p offered ex)
    (top : ex.scheduler.currDepth = 0) (h : pollIo d events ex = .ok ex') :
    p (offered ++ (d.ready events).map (·.index)) ex' := by
  induction events generalizing ex offered with
  | nil => cases h; simpa [IoDriver.ready] using start
  | cons event rest ih =>
    rw [pollIo, List.foldlM_cons] at h
    obtain ⟨mid, first, later⟩ := Steps.bind_ok' h
    split at first
    · cases first
      simpa [IoDriver.ready] using ih start top later
    · rename_i token
      split at first
      · cases first
      · rename_i r registered
        have next := seeding.fire first top start
        simpa [IoDriver.ready, registered] using ih next ((Steady.of_fire first).currDepth.trans top) later

end Seeding

/-! ## Seeds -/

/-- The nodes that the internal events of a cycle wake: the first `poll_limit`
notifications, the yields, the timers that are due. -/
def internalSeeds (input : CycleInput) (ex : Executor W) : List Ref :=
  ex.eventDriver.notifications.items.take ex.eventDriver.pollLimit ++ ex.eventDriver.yieldDriver ++
    (ex.eventDriver.timerDriver.map fun timer => timer.due input.first.instant).getD []

def ioSeeds (input : CycleInput) (ex : Executor W) : List Ref :=
  match ex.eventDriver.ioDriver, input.io with
  | some io, some events => io.ready events
  | _, _ => []

/-- The nodes that the events of a cycle wake. -/
def seeds (input : CycleInput) (ex : Executor W) : List Ref := internalSeeds input ex ++ ioSeeds input ex

variable {p : List NodeIndex → Executor W → Prop} {base offered : List NodeIndex} {ex ex' : Executor W}

theorem Seeding.internal {input : CycleInput} (seeding : Seeding p) (start : p offered ex)
    (top : ex.scheduler.currDepth = 0) (h : pollInternal input.first.instant ex = .ok ex') :
    p (offered ++ (internalSeeds input ex).map (·.index)) ex' ∧ ex'.scheduler.currDepth = 0 ∧
      ex'.eventDriver.ioDriver = ex.eventDriver.ioDriver := by
  obtain ⟨drained, yielded, notes, yields, timers⟩ := pollInternal_ok h
  obtain ⟨afterNotes, top, q, driver⟩ := seeding.drain start top notes
  obtain ⟨afterYields, top, left, driver'⟩ := seeding.yields afterNotes top yields
  rw [driver] at afterYields driver'
  unfold pollTimers at timers
  rw [driver'] at timers
  simp only at timers
  unfold internalSeeds
  split at timers
  · rename_i none
    cases timers
    exact ⟨by simpa [none] using afterYields, top, by rw [driver']⟩
  · rename_i timer configured
    obtain ⟨last, top, io⟩ := seeding.expire afterYields top (Nat.le_refl _) timers
    exact ⟨by simpa [configured] using last, top, by rw [io, driver']⟩

/-- A poll offers the seeds of its cycle, in their order; one that fails offers only the
internal ones. -/
theorem Seeding.poll {input : CycleInput} {t : Option CycleTime} (seeding : Seeding p) (start : p offered ex)
    (top : ex.scheduler.currDepth = 0) (h : Executor.poll input ex = .ok (t, ex')) :
    p (offered ++ ((if t.isSome then seeds input ex else internalSeeds input ex).map (·.index))) ex' := by
  obtain ⟨mid, internal, asks⟩ := poll_ok h
  obtain ⟨after, top, same⟩ := seeding.internal start top internal
  have reset : p _ mid.resetWaker := seeding.driver _ after
  rcases askIo_ok asks with ⟨rfl, rfl, -⟩ | ⟨now, rfl, none, rfl⟩ |
    ⟨now, io, events, rfl, configured, reported, polled⟩
  · simpa using after
  · rw [same] at none
    simpa [seeds, ioSeeds, none] using after
  · have last := seeding.io reset top polled
    rw [same] at configured
    simpa [seeds, ioSeeds, configured, reported] using last

theorem Tally.seeding : Seeding (Tally base : List NodeIndex → Executor W → Prop) where
  driver _ tally := tally.congr rfl rfl rfl rfl
  fire fired top tally := tally.fire fired top

theorem Tally.poll {input : CycleInput} {t : Option CycleTime} (tally : Tally base offered ex)
    (top : ex.scheduler.currDepth = 0) (h : Executor.poll input ex = .ok (t, ex')) :
    Tally base (offered ++ ((if t.isSome then seeds input ex else internalSeeds input ex).map (·.index))) ex' :=
  Tally.seeding.poll tally top h

end Executor
end Wavelet
