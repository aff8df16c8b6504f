import Wavelet.Cleanup.Removals
import Wavelet.Notify.Machine
import Wavelet.Runtime.Ownership

/-!
# Asleep on a notification

The poll sleeps when nothing is scheduled after the drain. The drain stops after
`poll_limit` entries, and an entry whose node is gone schedules nothing, so the executor
may go to sleep with an entry of a live node behind them. The wake that came with that
entry does not help when an earlier poll has taken it back. This is the only way: while no
cycle starts with its queue clogged like this, the executor never sleeps on a notification.
-/

namespace Wavelet
namespace Executor

variable {W : Type}

/-- `can_schedule` and `schedule` both take the node in slot `i`. -/
def Accepts (ex : Executor W) (i : NodeIndex) : Prop :=
  ∃ ctx ∈ ex.graph.nodeWeight i, ctx.schedEpoch ≠ ex.epoch ∧ ex.scheduler.currDepth ≤ ctx.depth

instance (ex : Executor W) (i : NodeIndex) : Decidable (ex.Accepts i) := by
  unfold Accepts
  infer_instance

/-- Something is scheduled, or will be when the entries of `l` are offered. -/
def Rouses (ex : Executor W) (l : List Ref) : Prop :=
  ex.scheduler.hasPendingEvent ∨ ∃ r ∈ l, ex.Accepts r.index

instance (ex : Executor W) (l : List Ref) : Decidable (ex.Rouses l) := inferInstanceAs (Decidable (_ ∨ _))

/-- No entry of `l` is for a node of the graph. -/
def Dead (ex : Executor W) (l : List Ref) : Prop := ∀ r ∈ l, ex.keyAt r.index = none

instance (ex : Executor W) (l : List Ref) : Decidable (ex.Dead l) := inferInstanceAs (Decidable (∀ r ∈ l, _))

/-- The yields and the timers that are due. -/
def others (input : CycleInput) (ex : Executor W) : List Ref :=
  ex.eventDriver.yieldDriver ++
    (ex.eventDriver.timerDriver.map fun timer => timer.due input.first.instant).getD []

/-- An entry that is offered schedules its node, unless the node is not accepted. -/
theorem fire_rouses {source : Source} {r : Ref} {l : List Ref} {ex ex' : Executor W}
    (h : fire source ex r = .ok ex') (rouses : ex.Rouses (r :: l)) : ex'.Rouses l := by
  obtain ⟨o, mid, offered, -, rfl⟩ := fire_ok h
  show mid.Rouses l
  rcases offer_cases offered with ⟨-, rfl, vacant⟩ | ⟨ctx, there, seen, -, rfl⟩ |
    ⟨ctx, there, -, above, -, rfl⟩ |
    ⟨ctx, there, -, -, bound, -, rfl⟩
  · rcases rouses with pending | ⟨s, member, ctx, here, accepted⟩
    · exact .inl pending
    · rcases List.mem_cons.mp member with rfl | later
      · rw [vacant] at here
        cases here
      · exact .inr ⟨s, later, ctx, here, accepted⟩
  · rcases rouses with pending | ⟨s, member, ctx', here, accepted⟩
    · exact .inl pending
    · rcases List.mem_cons.mp member with rfl | later
      · rw [there] at here
        cases here
        exact absurd seen accepted.1
      · exact .inr ⟨s, later, ctx', here, accepted⟩
  · rcases rouses with pending | ⟨s, member, ctx', here, accepted⟩
    · exact .inl pending
    · by_cases same : s.index = r.index
      · rw [same, there] at here
        cases here
        exact absurd accepted.2 (Nat.not_le_of_lt above)
      · rcases List.mem_cons.mp member with rfl | later
        · exact absurd rfl same
        · refine .inr ⟨s, later, ctx', ?_, accepted⟩
          show (ex.graph.setWeight r.index { ctx with schedEpoch := ex.epoch }).nodeWeight s.index = some ctx'
          rw [Graph.nodeWeight_setWeight there, if_neg same]
          exact here
  · left
    show decide (0 < ex.scheduler.pendingEvents + 1) = true
    exact decide_eq_true (Nat.succ_pos _)

theorem drainYields_rouses {l more : List Ref} {ex ex' : Executor W} (h : drainYields l ex = .ok ex')
    (rouses : ex.Rouses (l ++ more)) : ex'.Rouses more := by
  induction l generalizing ex with
  | nil => cases h; exact rouses
  | cons r rest ih =>
    obtain ⟨mid, fired, later⟩ := Steps.bind_ok h
    exact ih later (fire_rouses fired (show Rouses { ex with eventDriver := _ } (r :: (rest ++ more)) from rouses))

theorem Rouses.pending {ex : Executor W} (rouses : ex.Rouses []) : ex.scheduler.hasPendingEvent := by
  rcases rouses with pending | ⟨r, no, -⟩
  · exact pending
  · cases no

theorem expireTimers_rouses {now n : Nat} {timer : TimerDriver} {ex ex' : Executor W}
    (enough : timer.timers.entries.length ≤ n) (h : expireTimers now n timer ex = .ok ex')
    (rouses : ex.Rouses (timer.due now)) : ex'.scheduler.hasPendingEvent := by
  induction n generalizing timer ex with
  | zero =>
    cases h
    have none : timer.timers.entries = [] := List.eq_nil_of_length_eq_zero (by omega)
    have nothing : timer.due now = [] := by simp [TimerDriver.due, none]
    rw [nothing] at rouses
    exact rouses.pending
  | succ n ih =>
    obtain ⟨early, rfl⟩ | ⟨source, r, rest, mid, popped, due, fired, later⟩ := expireTimers_succ h
    · rw [TimerDriver.due_eq_nil early] at rouses
      exact rouses.pending
    · have entries := OrderedMap.popFirst_eq_some_iff.mp popped
      rw [TimerDriver.due_cons popped due] at rouses
      refine ih ?_ later (fire_rouses fired (show Rouses { ex with eventDriver := _ } (r :: _) from rouses))
      rw [entries, List.length_cons] at enough
      exact Nat.le_of_succ_le_succ enough

/-- The other sources look at neither the notifications nor the waker. -/
theorem pollOthers {input : CycleInput} {ex ex' : Executor W}
    (h : (ex.pollYields).bind (pollTimers input.first.instant) = .ok ex') :
    (ex.Rouses (others input ex) → ex'.scheduler.hasPendingEvent) ∧
      ex'.eventDriver.notifications = ex.eventDriver.notifications ∧
      ex'.eventDriver.waker = ex.eventDriver.waker ∧
      ex'.eventDriver.ioDriver = ex.eventDriver.ioDriver ∧ ∀ i, ex'.keyAt i = ex.keyAt i := by
  obtain ⟨mid, yields, timers⟩ := Steps.bind_ok h
  obtain ⟨left, driver⟩ := eventDriver_drainYields yields
  have steady : Steady ex mid :=
    drainYields_inv (p := Steady ex) (fun _ _ _ same => same.trans ⟨.refl _, rfl, rfl, rfl, rfl⟩)
    (fun _ _ _ _ fired same => same.trans (.of_fire fired)) yields (.refl ex)
  unfold pollTimers at timers
  split at timers
  · rename_i none
    cases timers
    refine ⟨fun rouses => ?_, by rw [driver], by rw [driver], by rw [driver], keyAt_of_same steady.graph⟩
    rw [driver] at none
    replace none : ex.eventDriver.timerDriver = .none := none
    have last : ex'.Rouses [] := drainYields_rouses yields (by simpa [others, none] using rouses)
    exact last.pending
  · rename_i timer configured
    obtain ⟨left', driver'⟩ := eventDriver_expireTimers timers
    have steady' : Steady mid ex' := expireTimers_inv (p := Steady mid)
      (fun _ _ _ same => same.trans ⟨.refl _, rfl, rfl, rfl, rfl⟩)
      (fun _ _ _ _ fired same => same.trans (.of_fire fired)) timers (.refl mid)
    refine ⟨fun rouses => ?_, by rw [driver', driver], by rw [driver', driver], by rw [driver', driver],
      keyAt_of_same (steady.trans steady').graph⟩
    refine expireTimers_rouses (Nat.le_refl _) timers (drainYields_rouses yields ?_)
    rw [driver] at configured
    replace configured : ex.eventDriver.timerDriver = some timer := configured
    simpa [others, configured] using rouses

end Executor

namespace Machine

variable {W : Type} {prog : Program W} {m m' : Machine W}

/-- A wake is on its way, or has come and was not taken back. -/
def Stirs (m : Machine W) : Prop := m.ex.eventDriver.waker = true ∨ 0 < m.waking

instance (m : Machine W) : Decidable m.Stirs := inferInstanceAs (Decidable (_ ∨ _))

/-- The executor is in an I/O poll that it did not enter with a zero timeout. -/
def Asleep (m : Machine W) : Prop :=
  match m.phase with
  | .asking input =>
    m.ex.eventDriver.ioDriver ≠ none ∧ m.ex.ioTimeout input.first.instant input.timeout ≠ some 0
  | _ => False

instance (m : Machine W) : Decidable m.Asleep := by
  unfold Asleep
  split <;> infer_instance

/-- The executor does not sleep on an entry for a node of the graph, unless it will be
woken at once. -/
def SleepsWell (m : Machine W) : Prop := m.Asleep → m.Stirs ∨ m.ex.Dead m.ex.eventDriver.notifications.items

/-- The cycle about to start may block, nothing is queued and no wake is on its way; none of
the first `poll_limit` notifications and of the other events schedules a node, and behind
them there is an entry for a node of the graph. -/
def Clogged (input : CycleInput) (m : Machine W) : Prop :=
  m.ex.eventDriver.ioDriver ≠ none ∧ input.timeout ≠ some 0 ∧ ¬ m.Stirs ∧
    ¬ m.ex.beginCycle.Rouses
    (m.ex.eventDriver.notifications.items.take m.ex.eventDriver.pollLimit ++ m.ex.others input) ∧
    ¬ m.ex.Dead (m.ex.eventDriver.notifications.items.drop m.ex.eventDriver.pollLimit)

instance (input : CycleInput) (m : Machine W) : Decidable (m.Clogged input) := by
  unfold Clogged
  infer_instance

/-- No cycle starts clogged. -/
def Unclogged (m : Machine W) (move : Move W) : Prop := ∀ input, move = .cycle input → ¬ m.Clogged input

/-- What holds on the way from the start of a cycle to its I/O poll: a wake is on its way,
or something will be scheduled, or nothing that is left behind matters. -/
def Attentive (m : Machine W) : Prop :=
  m.ex.eventDriver.ioDriver ≠ none →
    match m.phase with
    | .draining input left => input.timeout ≠ some 0 → m.Stirs ∨
        m.ex.Rouses (m.ex.eventDriver.notifications.items.take left ++ m.ex.others input) ∨
        m.ex.Dead (m.ex.eventDriver.notifications.items.drop left)
    | .polling input => input.timeout ≠ some 0 → m.Stirs ∨ m.ex.Rouses (m.ex.others input) ∨
        m.ex.Dead m.ex.eventDriver.notifications.items
    | .asking input => input.timeout ≠ some 0 → m.Stirs ∨ m.ex.scheduler.hasPendingEvent ∨
        m.ex.Dead m.ex.eventDriver.notifications.items
    | _ => True

/-- A wake on its way settles the matter. -/
theorem Attentive.of_stirs (stirs : m.ex.eventDriver.ioDriver ≠ none → m.Stirs) : m.Attentive := by
  intro configured
  have here := stirs configured
  split
  · exact fun _ => .inl here
  · exact fun _ => .inl here
  · exact fun _ => .inl here
  · trivial

theorem Attentive.takeNotification {input : CycleInput} {left : Nat} (attentive : m.Attentive)
    (here : m.phase = .draining input (left + 1)) (h : m.takeNotification input left = some m') :
    m'.Attentive := by
  unfold Machine.takeNotification at h
  split at h
  · rename_i none
    cases h
    intro _ _
    refine .inr (.inr fun r member => ?_)
    rw [BoundedQueue.pop_eq_none_iff.mp none] at member
    cases member
  · rename_i r queue popped
    obtain ⟨ex, fired, rfl⟩ := Option.map_eq_some_iff.mp h
    replace fired := toOption_eq_some.mp fired
    obtain ⟨items, -⟩ := BoundedQueue.pop_eq_some_iff.mp popped
    have driver : ex.eventDriver = { m.ex.eventDriver with notifications := queue } :=
      Executor.eventDriver_fire fired
    have slots : ∀ i, ex.keyAt i = m.ex.keyAt i :=
      Executor.keyAt_of_same (Executor.Steady.of_fire fired).graph
    intro configured blocks
    replace configured : ex.eventDriver.ioDriver ≠ none := configured
    rw [driver] at configured
    have before := attentive configured
    rw [here] at before
    rcases before blocks with stirs | rouses | dead
    · left
      show ex.eventDriver.waker = true ∨ 0 < m.waking
      rw [driver]
      exact stirs
    · right; left
      have same : Executor.others input ex = Executor.others input m.ex := by
        unfold Executor.others
        rw [driver]
      show ex.Rouses (ex.eventDriver.notifications.items.take left ++ Executor.others input ex)
      rw [same, driver]
      rw [items, List.take_succ_cons, List.cons_append] at rouses
      exact Executor.fire_rouses fired rouses
    · right; right
      intro s member
      replace member : s ∈ ex.eventDriver.notifications.items.drop left := member
      rw [driver] at member
      rw [items, List.drop_succ_cons] at dead
      show ex.keyAt s.index = none
      rw [slots]
      exact dead s member

theorem Attentive.next (attentive : m.Attentive) (h : m.next prog = some m') : m'.Attentive := by
  unfold Machine.next at h
  split at h
  · cases h
  · rename_i input here
    cases h
    intro configured blocks
    have before := attentive configured
    rw [show m.phase = _ from here] at before
    exact before blocks
  · rename_i input left here
    exact attentive.takeNotification here h
  · rename_i input here
    obtain ⟨ex, polled, rfl⟩ := Option.map_eq_some_iff.mp h
    obtain ⟨pending, notifications, waker, io, slots⟩ := Executor.pollOthers (toOption_eq_some.mp polled)
    intro configured blocks
    replace configured : ex.eventDriver.ioDriver ≠ none := configured
    rw [io] at configured
    have before := attentive configured
    rw [show m.phase = _ from here] at before
    rcases before blocks with stirs | rouses | dead
    · left
      show ex.eventDriver.waker = true ∨ 0 < m.waking
      rw [waker]
      exact stirs
    · exact .inr (.inl (pending rouses))
    · right; right
      intro s member
      replace member : s ∈ ex.eventDriver.notifications.items := member
      rw [notifications] at member
      show ex.keyAt s.index = none
      rw [slots]
      exact dead s member
  · obtain ⟨⟨t, ex⟩, -, same⟩ := Option.map_eq_some_iff.mp h
    cases t <;> cases same <;> exact fun _ => trivial
  · rename_i here
    obtain ⟨turn, -, same⟩ := Option.map_eq_some_iff.mp h
    cases turn with
    | finished ex => cases same; exact fun _ => trivial
    | terminated ex => cases same; exact fun _ => trivial
    | again ex =>
      cases same
      unfold Attentive
      rw [show m.phase = _ from here]
      exact fun _ => trivial
  · rename_i here
    split at h
    · cases h; exact fun _ => trivial
    · cases h
      unfold Attentive
      rw [show m.phase = _ from here]
      exact fun _ => trivial
  · cases h; exact fun _ => trivial
  · obtain ⟨ex, -, rfl⟩ := Option.map_eq_some_iff.mp h
    exact fun _ => trivial

theorem Attentive.step {move : Move W} (attentive : m.Attentive) (unclogged : m.Unclogged move)
    (h : m.step move = some m') : m'.Attentive := by
  cases move with
  | push t =>
    cases h
    exact .of_stirs fun _ => .inr (Nat.succ_pos _)
  | wake =>
    simp only [Machine.step] at h
    split at h
    · cases h
      refine .of_stirs fun configured => .inl ?_
      replace configured : m.ex.eventDriver.ioDriver ≠ none := configured
      show (m.ex.eventDriver.waker || m.ex.eventDriver.ioDriver.isSome) = true
      rw [Option.isSome_iff_ne_none.mpr configured, Bool.or_true]
    · cases h
  | op prog op =>
    simp only [Machine.step] at h
    split at h
    · rename_i idle
      obtain ⟨ex, -, rfl⟩ := Option.map_eq_some_iff.mp h
      unfold Attentive
      rw [show m.phase = _ from idle]
      exact fun _ => trivial
    · cases h
  | cycle input =>
    simp only [Machine.step] at h
    split at h
    · cases h
      intro configured blocks
      have free := unclogged input rfl
      unfold Clogged at free
      by_contra stuck
      rw [not_or, not_or] at stuck
      exact free ⟨configured, blocks, stuck⟩
    · cases h
  | next prog => exact attentive.next h

/-- While no cycle starts clogged, the executor does not sleep on a notification. -/
theorem sleeps_well (reached : Reachable Unclogged m) : m.SleepsWell := by
  obtain ⟨cfg, mode, world, run⟩ := reached
  have attentive : m.Attentive :=
    Steps.run_inv (p := Attentive)
      (fun _ _ ⟨_, unclogged, moved⟩ attentive => attentive.step unclogged moved) run
      (fun _ => trivial)
  intro asleep
  unfold Asleep at asleep
  split at asleep
  · rename_i input here
    obtain ⟨configured, waits⟩ := asleep
    have slow : ¬ m.ex.FastPath input.timeout := by
      intro fast
      exact waits (if_pos fast)
    unfold Executor.FastPath at slow
    rw [not_or] at slow
    have before := attentive configured
    rw [here] at before
    rcases before slow.2 with stirs | pending | dead
    · exact .inl stirs
    · exact absurd pending slow.1
    · exact .inr dead
  · cases asleep

/-! ## The condition is exact -/

end Machine

namespace Executor

variable {W : Type}

/-- What a poll leaves alone that schedules nothing. -/
structure Untouched (ex ex' : Executor W) : Prop where
  graph : ex'.graph = ex.graph
  scheduler : ex'.scheduler = ex.scheduler
  epoch : ex'.epoch = ex.epoch

theorem Untouched.trans {a b c : Executor W} (first : Untouched a b) (second : Untouched b c) :
    Untouched a c where
  graph := second.graph.trans first.graph
  scheduler := second.scheduler.trans first.scheduler
  epoch := second.epoch.trans first.epoch

theorem Untouched.accepts {ex ex' : Executor W} (same : Untouched ex ex') (i : NodeIndex) :
    ex'.Accepts i ↔ ex.Accepts i := by
  unfold Accepts
  rw [same.graph, same.scheduler, same.epoch]

theorem Untouched.keyAt {ex ex' : Executor W} (same : Untouched ex ex') (i : NodeIndex) :
    ex'.keyAt i = ex.keyAt i := by
  unfold Executor.keyAt
  rw [same.graph]

/-- At the top of the scheduler, an entry that is not accepted is dropped. -/
theorem fire_untouched (source : Source) (r : Ref) (ex : Executor W) (top : ex.scheduler.currDepth = 0)
    (ignored : ¬ ex.Accepts r.index) : ∃ event, fire source ex r = .ok (ex.log event) := by
  have unschedulable : ex.graph.canSchedule r.index ex.epoch = none := by
    apply Graph.canSchedule_eq_none_iff.mpr
    intro ctx there
    by_contra fresh
    apply ignored
    refine ⟨ctx, there, fresh, ?_⟩
    rw [top]
    exact Nat.zero_le _
  unfold fire offer
  rw [unschedulable]
  by_cases live : (ex.graph.nodeWeight r.index).isSome
  · simp only [live, if_true]
    exact ⟨_, rfl⟩
  · simp only [live]
    exact ⟨_, rfl⟩

theorem drainNotifications_untouched (n : Nat) (ex : Executor W) (top : ex.scheduler.currDepth = 0)
    (ignored : ∀ r ∈ ex.eventDriver.notifications.items.take n, ¬ ex.Accepts r.index) :
    ∃ ex' queue, drainNotifications n ex = .ok ex' ∧ Untouched ex ex' ∧
      ex'.eventDriver = { ex.eventDriver with notifications := queue } ∧
      queue.items = ex.eventDriver.notifications.items.drop n := by
  induction n generalizing ex with
  | zero => exact ⟨ex, ex.eventDriver.notifications, rfl, ⟨rfl, rfl, rfl⟩, rfl, rfl⟩
  | succ n ih =>
    rw [drainNotifications]
    cases popped : ex.eventDriver.notifications.pop with
    | none =>
      have empty := BoundedQueue.pop_eq_none_iff.mp popped
      exact ⟨ex, ex.eventDriver.notifications, rfl, ⟨rfl, rfl, rfl⟩, rfl, by rw [empty, List.drop_nil]⟩
    | some taken =>
      obtain ⟨r, queue⟩ := taken
      obtain ⟨items, -⟩ := BoundedQueue.pop_eq_some_iff.mp popped
      rw [items, List.take_succ_cons] at ignored
      obtain ⟨event, fired⟩ :=
        fire_untouched .notification r { ex with eventDriver := { ex.eventDriver with notifications := queue } }
        top (ignored r List.mem_cons_self)
      obtain ⟨ex', last, rest, same, driver, left⟩ := ih
        (log { ex with eventDriver := { ex.eventDriver with notifications := queue } } event) top
        (fun s member => ignored s (List.mem_cons_of_mem _ member))
      refine ⟨ex', last, ?_, ⟨same.graph, same.scheduler, same.epoch⟩, driver, ?_⟩
      · dsimp only
        rw [fired]
        exact rest
      · rw [items, List.drop_succ_cons]
        exact left

theorem drainYields_untouched (l : List Ref) (ex : Executor W) (top : ex.scheduler.currDepth = 0)
    (ignored : ∀ r ∈ l, ¬ ex.Accepts r.index) : ∃ ex', drainYields l ex = .ok ex' ∧ Untouched ex ex' := by
  induction l generalizing ex with
  | nil => exact ⟨ex, rfl, ⟨rfl, rfl, rfl⟩⟩
  | cons r rest ih =>
    obtain ⟨event, fired⟩ :=
      fire_untouched .yield r { ex with eventDriver := { ex.eventDriver with yieldDriver := rest } }
      top (ignored r List.mem_cons_self)
    obtain ⟨ex', later, same⟩ :=
      ih (log { ex with eventDriver := { ex.eventDriver with yieldDriver := rest } } event) top
      (fun s member => ignored s (List.mem_cons_of_mem _ member))
    refine ⟨ex', ?_, ⟨same.graph, same.scheduler, same.epoch⟩⟩
    rw [drainYields, fired]
    exact later

/-- The timers that are left are not due. -/
theorem expireTimers_untouched {now : Nat} (n : Nat) (timer : TimerDriver) (ex : Executor W)
    (start : ex.eventDriver.timerDriver = some timer) (enough : timer.timers.entries.length ≤ n)
    (top : ex.scheduler.currDepth = 0) (ignored : ∀ r ∈ timer.due now, ¬ ex.Accepts r.index) :
    ∃ ex' left, expireTimers now n timer ex = .ok ex' ∧ Untouched ex ex' ∧
      ex'.eventDriver.timerDriver = some left ∧
      ∀ deadline, left.nextTimer = some deadline → now < deadline := by
  induction n generalizing timer ex with
  | zero =>
    have none : timer.timers.entries = [] := List.eq_nil_of_length_eq_zero (by omega)
    refine ⟨ex, timer, rfl, ⟨rfl, rfl, rfl⟩, start, fun deadline next => ?_⟩
    rw [TimerDriver.nextTimer_eq_none none] at next
    cases next
  | succ n ih =>
    rw [expireTimers]
    cases popped : timer.timers.popFirst with
    | none =>
      have none := OrderedMap.popFirst_eq_none_iff.mp popped
      refine ⟨ex, timer, rfl, ⟨rfl, rfl, rfl⟩, start, fun deadline next => ?_⟩
      rw [TimerDriver.nextTimer_eq_none none] at next
      cases next
    | some first =>
      obtain ⟨⟨source, r⟩, rest⟩ := first
      have entries := OrderedMap.popFirst_eq_some_iff.mp popped
      by_cases due : source.when ≤ now
      · rw [TimerDriver.due_cons popped due] at ignored
        rw [entries, List.length_cons] at enough
        obtain ⟨event, fired⟩ := fire_untouched .timer r
          { ex with eventDriver := { ex.eventDriver with timerDriver := some { timer with timers := rest } } }
          top (ignored r List.mem_cons_self)
        obtain ⟨ex', left, later, same, driver, after⟩ := ih { timer with timers := rest }
          (log { ex with eventDriver := { ex.eventDriver with timerDriver := some { timer with timers := rest } } } event) rfl
          (Nat.le_of_succ_le_succ enough) top (fun s member => ignored s (List.mem_cons_of_mem _ member))
        refine ⟨ex', left, ?_, ⟨same.graph, same.scheduler, same.epoch⟩, driver, after⟩
        dsimp only
        rw [if_pos due, fired]
        exact later
      · refine ⟨ex, timer, ?_, ⟨rfl, rfl, rfl⟩, start, fun deadline next => ?_⟩
        · dsimp only
          rw [if_neg due]
        · unfold TimerDriver.nextTimer OrderedMap.first at next
          rw [entries] at next
          cases next
          exact Nat.lt_of_not_le due

theorem pollOthers_untouched {input : CycleInput} (ex : Executor W) (top : ex.scheduler.currDepth = 0)
    (waits : input.timeout ≠ some 0) (ignored : ∀ r ∈ others input ex, ¬ ex.Accepts r.index) :
    ∃ ex', (ex.pollYields).bind (pollTimers input.first.instant) = .ok ex' ∧ Untouched ex ex' ∧
      ex'.eventDriver.effectiveTimeout input.first.instant input.timeout ≠ some 0 := by
  obtain ⟨mid, yields, same⟩ := drainYields_untouched ex.eventDriver.yieldDriver ex top
    (fun r member => ignored r (List.mem_append_left _ member))
  obtain ⟨left, driver⟩ := eventDriver_drainYields yields
  have timers : mid.eventDriver.timerDriver = ex.eventDriver.timerDriver := by rw [driver]
  replace yields : ex.pollYields = .ok mid := yields
  rw [yields]
  show ∃ ex', pollTimers input.first.instant mid = .ok ex' ∧ _
  unfold pollTimers
  cases configured : ex.eventDriver.timerDriver with
  | none =>
    rw [timers, configured]
    refine ⟨mid, rfl, same, EventDriver.effectiveTimeout_ne_zero waits fun timer deadline some _ => ?_⟩
    rw [timers, configured] at some
    cases some
  | some timer =>
    rw [timers, configured]
    have due : ∀ r ∈ timer.due input.first.instant, ¬ mid.Accepts r.index := by
      intro r member
      rw [same.accepts]
      apply ignored
      apply List.mem_append_right
      rw [configured]
      exact member
    obtain ⟨ex', last, expires, same', driver', after⟩ :=
      expireTimers_untouched timer.timers.entries.length timer mid
      (timers.trans configured) (Nat.le_refl _) (by rw [same.scheduler]; exact top) due
    refine ⟨ex', expires, same.trans same',
      EventDriver.effectiveTimeout_ne_zero waits fun timer' deadline some next => ?_⟩
    rw [driver'] at some
    cases some
    exact after deadline next

end Executor

namespace Machine

variable {W : Type} {m : Machine W}

/-- Left alone, a cycle that starts clogged goes to sleep on a notification. -/
theorem clogged_sleeps (prog : Program W) {input : CycleInput} (top : m.ex.scheduler.currDepth = 0)
    (clogged : m.Clogged input) :
    ∃ m', Alone prog ⟨m.ex.beginCycle, .draining input m.ex.eventDriver.pollLimit, m.waking⟩ m' ∧
      ¬ m'.SleepsWell := by
  obtain ⟨configured, blocks, still, asleep, alive⟩ := clogged
  unfold Executor.Rouses at asleep
  rw [not_or] at asleep
  obtain ⟨idle, ignored⟩ := asleep
  have ignores : ∀ r, r ∈ m.ex.eventDriver.notifications.items.take m.ex.eventDriver.pollLimit ++
      m.ex.others input →
      ¬ m.ex.beginCycle.Accepts r.index := fun r member accepted => ignored ⟨r, member, accepted⟩
  obtain ⟨drained, queue, notes, same, driver, left⟩ :=
    Executor.drainNotifications_untouched m.ex.eventDriver.pollLimit
    m.ex.beginCycle top (fun r member => ignores r (List.mem_append_left _ member))
  replace driver : drained.eventDriver = { m.ex.eventDriver with notifications := queue } := driver
  have others : Executor.others input drained = Executor.others input m.ex := by
    unfold Executor.others
    rw [driver]
  have ignored' : ∀ r ∈ Executor.others input drained, ¬ drained.Accepts r.index := by
    intro r member
    rw [same.accepts]
    rw [others] at member
    exact ignores r (List.mem_append_right _ member)
  obtain ⟨polled, both, same', waits⟩ :=
    Executor.pollOthers_untouched drained (by rw [same.scheduler]; exact top) blocks ignored'
  obtain ⟨-, notifications, waker, io, -⟩ := Executor.pollOthers both
  have slow : ¬ polled.FastPath input.timeout := by
    unfold Executor.FastPath
    rw [same'.scheduler, same.scheduler, not_or]
    exact ⟨idle, blocks⟩
  refine ⟨⟨polled, .asking input, m.waking⟩, (drain_alone prog notes).trans (.single ?_), fun well => ?_⟩
  · simp only [next, both]
    rfl
  · have sleeping : Asleep ⟨polled, .asking input, m.waking⟩ := by
      constructor
      · rw [io, driver]
        exact configured
      · unfold Executor.ioTimeout
        rw [if_neg slow]
        exact waits
    rcases well sleeping with stirs | dead
    · apply still
      unfold Stirs at stirs ⊢
      rw [waker, driver] at stirs
      exact stirs
    · apply alive
      intro r member
      have gone := dead r (by rw [notifications, driver]; show r ∈ queue.items; rw [left]; exact member)
      rw [same'.keyAt, same.keyAt] at gone
      exact gone

/-! ## A park that is woken and one that is not -/

/-- An executor that parks and takes one notification a cycle. -/
def parked : Machine Unit := withConfig { timerEnabled := false, pollLimit := 1 } .park ()

/-- A call without a timeout; `events` is what `mio` reports. -/
def parking (events : List IoEvent) : CycleInput := ⟨none, ⟨0, 0⟩, ⟨0, 0⟩, some events⟩

/-- Two nodes; node 0 sweeps itself in the first cycle. -/
def sweepsFirst : List (Move Unit) :=
  [.op Executor.quitter (.build { index := 0 }), .op Executor.quitter (.build { index := 1 }),
    .op Executor.quitter (.driver (.yieldNow (.node 0))), .cycle (parking [])] ++
      List.replicate 8 (.next Executor.quitter)

def unclogged (m : Machine Unit) : Move Unit → Bool
  | .cycle input => ! decide (m.Clogged input)
  | _ => true

theorem unclogged_sound (m : Machine Unit) (move : Move Unit) (h : unclogged m move = true) :
    m.Unclogged move := by
  rintro input rfl clogged
  simp [unclogged, clogged] at h

/-- The executor goes to sleep with an empty queue, and is notified. -/
def rests : List (Move Unit) :=
  [.push (.node 1), .wake, .cycle (parking [.waker])] ++ List.replicate 8 (.next Executor.quitter) ++
    [.cycle (parking [])] ++ List.replicate 2 (.next Executor.quitter) ++ [.push (.node 1)]

theorem rests_sleeps_well : ∃ m, parked.play unclogged (sweepsFirst ++ rests) = some m ∧ m.Asleep ∧
    m.ex.notices = [1] ∧
    m.SleepsWell :=
  have played : parked.play unclogged (sweepsFirst ++ rests) = some _ := rfl
  ⟨_, played, by decide, rfl, sleeps_well (.play unclogged_sound (Reachable.initial ..) played)⟩

/-- Two entries of node 0, which is gone, stand before one of node 1. The first cycle takes
one of them, and its I/O poll takes back the three wakes. -/
def oversleeps : List (Move Unit) :=
  [.push (.node 0), .wake, .push (.node 0), .wake, .push (.node 1), .wake, .cycle (parking [.waker])] ++
    List.replicate 7 (.next Executor.quitter) ++ [.cycle (parking [])] ++
      List.replicate 3 (.next Executor.quitter)

theorem oversleeps_notification : ∃ m, parked.play (fun _ _ => true) (sweepsFirst ++ oversleeps) = some m ∧
    Reachable (fun _ _ => True) m ∧ m.ex.notices = [1] ∧ m.ex.Present 1 ∧ ¬ m.SleepsWell :=
  have played : parked.play (fun _ _ => true) (sweepsFirst ++ oversleeps) = some _ := rfl
  ⟨_, played, .play (fun _ _ _ => trivial) (Reachable.initial ..) played, rfl, by decide,
    fun well => absurd (well (by decide)) (by decide)⟩

end Machine
end Wavelet
