import Wavelet.Cycle.Order
import Wavelet.Events.Timers

/-!
# Deadlines and the polls

What the timers have to do with the readings of the clock: which timers a poll takes out and
offers, whether `has_expired` says the same of them, how long the I/O poll may sleep while
they are outstanding, and what a second reading after such a sleep means for them.
-/

namespace Wavelet

/-- `TimerSource::has_expired`. -/
def TimerSource.hasExpired (source : TimerSource) (now : Nat) : Bool := decide (source.when < now)

/-- The node that a timer offers. -/
def Event.timer : Event → Option Ref
  | .fired .timer r _ _ _ => some r
  | _ => none

namespace Executor

variable {W : Type}

/-! ## What a poll takes out -/

theorem fire_logs {source : Source} {r : Ref} {ex ex' : Executor W} (h : fire source ex r = .ok ex') :
    ∃ occupant queued o, ex'.trace = .fired source r occupant queued o :: ex.trace := by
  obtain ⟨o, mid, offered, -, rfl⟩ := fire_ok h
  exact ⟨_, _, o, congrArg _ (trace_offer offered)⟩

/-- The loop over the timers is the driver's own: it offers each timer that it takes out. -/
theorem expireTimers_taken {now n : Nat} {timer : TimerDriver} {ex ex' : Executor W}
    (configured : ex.eventDriver.timerDriver = some timer) (h : expireTimers now n timer ex = .ok ex') :
    ex'.eventDriver = { ex.eventDriver with timerDriver := some (timer.expire now n).2 } ∧
      ∃ events, ex'.trace = events ++ ex.trace ∧
      events.map Event.timer = ((timer.expire now n).1.map fun t => some t.2).reverse := by
  induction n generalizing timer ex with
  | zero =>
    cases h
    exact ⟨by simp [TimerDriver.expire, ← configured], [], rfl, rfl⟩
  | succ n ih =>
    rw [TimerDriver.expire]
    obtain ⟨early, rfl⟩ | ⟨source, r, rest, mid, popped, due, fired, later⟩ := expireTimers_succ h
    · split
      · exact ⟨by simp [← configured], [], rfl, rfl⟩
      · rename_i source r rest popped
        rw [if_neg (Nat.not_le_of_lt (early source r rest popped))]
        exact ⟨by simp [← configured], [], rfl, rfl⟩
    · have driver := eventDriver_fire fired
      obtain ⟨last, events, trace, timers⟩ := ih (by rw [driver]) later
      obtain ⟨occupant, queued, o, logged⟩ := fire_logs fired
      simp only [popped, if_pos due]
      refine ⟨?_, events ++ [.fired .timer r occupant queued o], ?_, ?_⟩
      · rw [last, driver]
      · rw [trace, logged, List.append_assoc]
        rfl
      · rw [List.map_append, timers]
        simp [Event.timer]

/-- What `TimerDriver::poll` does to the timers and to the nodes it offers. -/
theorem pollTimers_taken {now : Nat} {timer : TimerDriver} {ex ex' : Executor W}
    (configured : ex.eventDriver.timerDriver = some timer) (h : pollTimers now ex = .ok ex') :
    ex'.eventDriver.timerDriver = some (timer.poll now).2 ∧
      ∃ events, ex'.trace = events ++ ex.trace ∧
      events.map Event.timer = ((timer.poll now).1.map fun t => some t.2).reverse := by
  unfold pollTimers at h
  rw [configured] at h
  obtain ⟨driver, offered⟩ := expireTimers_taken configured h
  exact ⟨by rw [driver]; rfl, offered⟩

theorem timerDriver_pollTimers {now : Nat} {ex ex' : Executor W} (h : pollTimers now ex = .ok ex') :
    ex'.eventDriver.timerDriver = ex.eventDriver.timerDriver.map fun timer => (timer.poll now).2 := by
  cases configured : ex.eventDriver.timerDriver with
  | none =>
    unfold pollTimers at h
    rw [configured] at h
    cases h
    exact configured
  | some timer => exact (pollTimers_taken configured h).1

theorem timerDriver_drainNotifications {n : Nat} {ex ex' : Executor W}
    (h : drainNotifications n ex = .ok ex') :
    ex'.eventDriver.timerDriver = ex.eventDriver.timerDriver := by
  induction n generalizing ex with
  | zero => cases h; rfl
  | succ n ih =>
    rw [drainNotifications] at h
    split at h
    · cases h; rfl
    · obtain ⟨mid, fired, rest⟩ := Steps.bind_ok h
      rw [ih rest, eventDriver_fire fired]

theorem timerDriver_pollInternal {now : Nat} {ex ex' : Executor W} (h : pollInternal now ex = .ok ex') :
    ex'.eventDriver.timerDriver = ex.eventDriver.timerDriver.map fun timer => (timer.poll now).2 := by
  obtain ⟨drained, yielded, notes, yields, timers⟩ := pollInternal_ok h
  obtain ⟨left, driver⟩ := eventDriver_drainYields yields
  rw [timerDriver_pollTimers timers, driver]
  show (drained.eventDriver.timerDriver).map _ = _
  rw [timerDriver_drainNotifications notes]

theorem eventDriver_pollIo {io : IoDriver} {events : List IoEvent} {ex ex' : Executor W}
    (h : pollIo io events ex = .ok ex') :
    ex'.eventDriver = ex.eventDriver :=
  pollIo_inv (p := fun s => s.eventDriver = ex.eventDriver)
    (fun _ _ _ fired same => (eventDriver_fire fired).trans same) h rfl

theorem timerDriver_askIo {input : CycleInput} {t : Option CycleTime} {ex ex' : Executor W}
    (h : askIo input ex = .ok (t, ex')) :
    ex'.eventDriver.timerDriver = ex.eventDriver.timerDriver := by
  rcases askIo_ok h with ⟨-, rfl, -⟩ | ⟨_, -, -, rfl⟩ | ⟨_, io, events, -, -, -, polled⟩
  · rfl
  · rfl
  · rw [eventDriver_pollIo polled]
    rfl

/-- After the internal polls every timer that is left is still to come. -/
theorem later_of_pollInternal {now : Nat} {ex mid : Executor W} (h : pollInternal now ex = .ok mid)
    {timer : TimerDriver} (configured : mid.eventDriver.timerDriver = some timer) :
    ∀ t ∈ timer.timers.entries, now < t.1.when := by
  rw [timerDriver_pollInternal h] at configured
  obtain ⟨before, -, rfl⟩ := Option.map_eq_some_iff.mp configured
  intro t member
  exact (TimerDriver.mem_left_iff.mp member).2

/-! ## Two notions of expiry -/

/-- The poll takes the timer out and offers its node. -/
def TakesOut (ex ex' : Executor W) (source : TimerSource) (r : Ref) : Prop :=
  (∀ timer, ex'.eventDriver.timerDriver = some timer → timer.contains source = false) ∧
    ∃ events, ex'.trace = events ++ ex.trace ∧ some r ∈ events.map Event.timer

/-- `has_expired` and the poll that led from `ex` to `ex'` say the same of the timers: of each
outstanding one before it, of those that are left, and of those that were taken out. -/
structure ExpiryAgrees (timer : TimerDriver) (now : Nat) (ex ex' : Executor W) : Prop where
  each : ∀ source r, (source, r) ∈ timer.timers.entries →
    (source.hasExpired now = true ↔ TakesOut ex ex' source r)
  left : ∀ timer', ex'.eventDriver.timerDriver = some timer' →
    ∀ t ∈ timer'.timers.entries, t.1.hasExpired now = false
  fired : ∀ source r, (source, r) ∈ timer.timers.entries → TakesOut ex ex' source r →
    source.hasExpired now = true

theorem takesOut_iff {now : Nat} {timer : TimerDriver} {ex ex' : Executor W}
    (configured : ex.eventDriver.timerDriver = some timer) (h : pollTimers now ex = .ok ex')
    {source : TimerSource} {r : Ref} (outstanding : (source, r) ∈ timer.timers.entries) :
    TakesOut ex ex' source r ↔ source.when ≤ now := by
  obtain ⟨driver, events, trace, offered⟩ := pollTimers_taken configured h
  constructor
  · rintro ⟨gone, -⟩
    by_contra early
    have there : (source, r) ∈ (timer.poll now).2.timers.entries :=
      TimerDriver.mem_left_iff.mpr ⟨outstanding, Nat.lt_of_not_le early⟩
    have back := TimerDriver.contains_iff.mpr ⟨r, there⟩
    rw [gone _ driver] at back
    cases back
  · intro due
    constructor
    · intro timer' configured'
      rw [driver] at configured'
      cases configured'
      apply Bool.eq_false_iff.mpr
      intro held
      obtain ⟨r', left⟩ := TimerDriver.contains_iff.mp held
      have := (TimerDriver.mem_left_iff.mp left).2
      dsimp only at this
      omega
    · refine ⟨events, trace, ?_⟩
      rw [offered, List.mem_reverse, List.mem_map]
      exact ⟨(source, r), TimerDriver.mem_taken_iff.mpr ⟨outstanding, due⟩, rfl⟩

/-- The two agree on all timers unless one is due at the very instant of the poll. -/
theorem expiry_agrees_iff {now : Nat} {timer : TimerDriver} {ex ex' : Executor W}
    (configured : ex.eventDriver.timerDriver = some timer) (h : pollTimers now ex = .ok ex') :
    ExpiryAgrees timer now ex ex' ↔ ∀ t ∈ timer.timers.entries, t.1.when ≠ now := by
  constructor
  · rintro agrees ⟨source, r⟩ outstanding rfl
    have taken := (takesOut_iff configured h outstanding).mpr (Nat.le_refl _)
    have expired := of_decide_eq_true (agrees.fired source r outstanding taken)
    exact Nat.lt_irrefl _ expired
  · intro apart
    have each : ∀ source r, (source, r) ∈ timer.timers.entries →
        (source.hasExpired now = true ↔ TakesOut ex ex' source r) := by
      intro source r outstanding
      have other : source.when ≠ now := apart (source, r) outstanding
      rw [takesOut_iff configured h outstanding, TimerSource.hasExpired, decide_eq_true_iff]
      omega
    constructor
    · exact each
    · intro timer' configured' t member
      rw [(pollTimers_taken configured h).1] at configured'
      cases configured'
      have ahead := (TimerDriver.mem_left_iff.mp member).2
      exact decide_eq_false (by omega)
    · intro source r outstanding taken
      exact (each source r outstanding).mpr taken

/-- An executor with timers and I/O that may sleep, and a node with a timer for `when`. -/
def waiting (when : Nat) : Except Failure (Executor Unit) :=
  (withConfig {} .park ()).execOps relay [.build { index := 0 }, .driver (.registerTimer (.node 0) when)]

/-- Between two deadlines. -/
theorem waiting_expiry_agrees :
    ∃ timer ex ex', waiting 5 = .ok ex ∧ ex.eventDriver.timerDriver = some timer ∧ pollTimers 7 ex = .ok ex' ∧
      ExpiryAgrees timer 7 ex ex' :=
  ⟨_, _, _, rfl, rfl, rfl, (expiry_agrees_iff rfl rfl).mpr (by decide)⟩

/-- A timer that is due at the instant of the poll is taken out, but has not expired. -/
theorem waiting_expiry_differs :
    ∃ timer ex ex', waiting 5 = .ok ex ∧ ex.eventDriver.timerDriver = some timer ∧ pollTimers 5 ex = .ok ex' ∧
      (⟨5, 0⟩, ⟨0, some 0⟩) ∈ timer.timers.entries ∧ TimerSource.hasExpired ⟨5, 0⟩ 5 = false ∧
      TakesOut ex ex' ⟨5, 0⟩ ⟨0, some 0⟩ ∧ ¬ ExpiryAgrees timer 5 ex ex' := by
  have taken : ∀ {ex ex' : Executor Unit}, waiting 5 = .ok ex → pollTimers 5 ex = .ok ex' →
      TakesOut ex ex' ⟨5, 0⟩ ⟨0, some 0⟩ := by
    intro ex ex' built polled
    cases built
    exact (takesOut_iff rfl polled (by decide)).mpr (Nat.le_refl _)
  refine ⟨_, _, _, rfl, rfl, rfl, by decide, rfl, taken rfl rfl, fun agrees => ?_⟩
  have expired := agrees.fired ⟨5, 0⟩ ⟨0, some 0⟩ (by decide) (taken rfl rfl)
  cases expired

/-! ## How long the I/O poll may sleep -/

/-- The limits on the timeout that the slow path hands to the I/O poll. -/
structure SleepRespects (driver : EventDriver) (now : Nat) (timeout effective : Option Nat) : Prop where
  caller : ∀ t, timeout = some t → ∃ e, effective = some e ∧ e ≤ t
  timer : ∀ timer deadline, driver.timerDriver = some timer → timer.nextTimer = some deadline →
    ∃ e, effective = some e ∧ e ≤ max EventDriver.minimumTimerPrecision (deadline - now)
  deadline : timeout = none → ∀ timer deadline, driver.timerDriver = some timer →
    timer.nextTimer = some deadline →
    ∃ e, effective = some e ∧ now + e ≤ deadline
  unbounded : effective = none → timeout = none ∧ ∀ timer, driver.timerDriver = some timer →
    timer.nextTimer = none
  busy : effective ≠ some 0

/-- All limits are respected unless the caller will wait for less than the clamp of 1 ms while
a timer is outstanding. -/
theorem sleep_respects_iff {now : Nat} {timeout : Option Nat} {ex mid : Executor W}
    (internal : pollInternal now ex = .ok mid) (slow : ¬ mid.FastPath timeout) :
    SleepRespects mid.eventDriver now timeout (mid.ioTimeout now timeout) ↔
      ∀ t timer deadline, timeout = some t → mid.eventDriver.timerDriver = some timer →
      timer.nextTimer = some deadline →
        EventDriver.minimumTimerPrecision ≤ t := by
  have waits : timeout ≠ some 0 := fun zero => slow (.inr zero)
  have later : ∀ timer deadline, mid.eventDriver.timerDriver = some timer →
      timer.nextTimer = some deadline → now < deadline := by
    intro timer deadline configured next
    obtain ⟨⟨t, member, rfl⟩, -⟩ := TimerDriver.nextTimer_eq_some next
    exact later_of_pollInternal internal configured t member
  have busy := EventDriver.effectiveTimeout_ne_zero waits later
  rw [ioTimeout, if_neg slow]
  constructor
  · rintro respects t timer deadline rfl configured next
    obtain ⟨e, effective, short⟩ := respects.caller t rfl
    simp only [EventDriver.effectiveTimeout, configured, next, Option.some.injEq] at effective
    omega
  · intro long
    cases configured : mid.eventDriver.timerDriver with
    | none =>
      have effective : mid.eventDriver.effectiveTimeout now timeout = timeout := by
        cases timeout <;> simp [EventDriver.effectiveTimeout, configured]
      rw [effective] at busy ⊢
      refine ⟨fun t given => ⟨t, given, Nat.le_refl t⟩, ?_, ?_, fun none => ⟨none, ?_⟩, busy⟩
      · intro timer deadline no
        rw [configured] at no
        cases no
      · intro _ timer deadline no
        rw [configured] at no
        cases no
      · intro timer no
        rw [configured] at no
        cases no
    | some timer =>
      have only : ∀ {timer'}, mid.eventDriver.timerDriver = some timer' → timer' = timer := by
        intro timer' same
        rw [configured] at same
        exact (Option.some.inj same).symm
      cases next : timer.nextTimer with
      | none =>
        have effective : mid.eventDriver.effectiveTimeout now timeout = timeout := by
          cases timeout <;> simp [EventDriver.effectiveTimeout, configured, next]
        rw [effective] at busy ⊢
        refine ⟨fun t given => ⟨t, given, Nat.le_refl t⟩, ?_, ?_, fun none => ⟨none, ?_⟩, busy⟩
        · intro timer' deadline same some
          rw [only same, next] at some
          cases some
        · intro _ timer' deadline same some
          rw [only same, next] at some
          cases some
        · intro timer' same
          rw [only same, next]
      | some deadline =>
        have ahead := later timer deadline configured next
        cases timeout with
        | none =>
          have effective : mid.eventDriver.effectiveTimeout now none = some (deadline - now) := by
            simp [EventDriver.effectiveTimeout, configured, next]
          rw [effective] at busy ⊢
          refine ⟨fun t no => (by cases no), ?_, ?_, fun no => (by cases no), busy⟩
          · intro timer' deadline' same some
            rw [only same, next] at some
            cases some
            exact ⟨_, rfl, Nat.le_max_right ..⟩
          · intro _ timer' deadline' same some
            rw [only same, next] at some
            cases some
            exact ⟨_, rfl, by omega⟩
        | some t =>
          have clamp := long t timer deadline rfl configured next
          have effective : mid.eventDriver.effectiveTimeout now (some t) =
              some (max (min t (deadline - now)) EventDriver.minimumTimerPrecision) := by
            simp [EventDriver.effectiveTimeout, configured, next]
          rw [effective] at busy ⊢
          refine ⟨fun t' given => ?_, ?_, fun no => (by cases no), fun no => (by cases no), busy⟩
          · cases given
            exact ⟨_, rfl, Nat.max_le.mpr ⟨Nat.min_le_left .., clamp⟩⟩
          · intro timer' deadline' same some
            rw [only same, next] at some
            cases some
            refine ⟨_, rfl, Nat.max_le.mpr ⟨?_, Nat.le_max_left ..⟩⟩
            exact Nat.le_trans (Nat.min_le_right ..) (Nat.le_max_right ..)

/-- A caller that will wait for 2 ms, and a timer in 5 ms. -/
theorem waiting_sleep_respects :
    ∃ ex mid, waiting 5000000 = .ok ex ∧ pollInternal 0 ex = .ok mid ∧
      mid.ioTimeout 0 (some 2000000) = some 2000000 ∧
      SleepRespects mid.eventDriver 0 (some 2000000) (mid.ioTimeout 0 (some 2000000)) := by
  obtain ⟨ex, mid, built, polled, slow, sleep⟩ : ∃ ex mid, waiting 5000000 = .ok ex ∧
      pollInternal 0 ex = .ok mid ∧
      ¬ mid.FastPath (some 2000000) ∧ mid.ioTimeout 0 (some 2000000) = some 2000000 :=
    ⟨_, _, rfl, rfl, by decide, by decide⟩
  refine ⟨ex, mid, built, polled, sleep, (sleep_respects_iff polled slow).mpr ?_⟩
  intro t timer deadline given _ _
  cases given
  decide

/-- A caller that will wait for 0.1 ms sleeps for 1 ms. -/
theorem waiting_oversleeps :
    ∃ ex mid, waiting 5000000 = .ok ex ∧ pollInternal 0 ex = .ok mid ∧ ¬ mid.FastPath (some 100000) ∧
      mid.ioTimeout 0 (some 100000) = some 1000000 ∧
      ¬ SleepRespects mid.eventDriver 0 (some 100000) (mid.ioTimeout 0 (some 100000)) := by
  obtain ⟨ex, mid, built, polled, slow, sleep⟩ : ∃ ex mid, waiting 5000000 = .ok ex ∧
      pollInternal 0 ex = .ok mid ∧
      ¬ mid.FastPath (some 100000) ∧ mid.ioTimeout 0 (some 100000) = some 1000000 :=
    ⟨_, _, rfl, rfl, by decide, by decide⟩
  refine ⟨ex, mid, built, polled, slow, sleep, fun respects => ?_⟩
  obtain ⟨e, effective, short⟩ := respects.caller 100000 rfl
  rw [sleep] at effective
  cases effective
  exact absurd short (by decide)

/-! ## The time that the nodes see -/

/-- The I/O poll may sleep and the nodes then get a second reading of the clock. -/
def MaySleep (mid : Executor W) (timeout : Option Nat) : Prop :=
  mid.eventDriver.ioDriver ≠ none ∧ mid.eventDriver.mode = .park ∧ ¬ mid.FastPath timeout

/-- A poll that does not sleep hands out the reading that the timers were polled with. -/
theorem time_of_poll {input : CycleInput} {now : CycleTime} {ex mid polled : Executor W}
    (internal : pollInternal input.first.instant ex = .ok mid)
    (polls : poll input ex = .ok (some now, polled)) :
    (MaySleep mid input.timeout → now = input.second) ∧
      (¬ MaySleep mid input.timeout → now = input.first) := by
  obtain ⟨mid', internal', asks⟩ := poll_ok polls
  rw [internal] at internal'
  cases internal'
  have busy (slow : ¬ mid.FastPath input.timeout) :
      mid.ioTimeout input.first.instant input.timeout ≠ some 0 := by
    rw [ioTimeout, if_neg slow]
    apply EventDriver.effectiveTimeout_ne_zero
    · exact fun zero => slow (.inr zero)
    · intro timer deadline configured next
      obtain ⟨⟨t, member, rfl⟩, -⟩ := TimerDriver.nextTimer_eq_some next
      exact later_of_pollInternal internal configured t member
  unfold askIo at asks
  split at asks
  · rename_i absent
    cases asks
    exact ⟨fun sleeps => absurd absent sleeps.1, fun _ => rfl⟩
  · cases asks
  · rename_i io events configured reported
    obtain ⟨last, -, same⟩ := Steps.map_ok asks
    simp only [Prod.mk.injEq, Option.some.injEq] at same
    rw [← same.1]
    constructor
    · rintro ⟨-, park, slow⟩
      exact if_pos ⟨slow, park, busy slow⟩
    · intro awake
      apply if_neg
      rintro ⟨slow, park, -⟩
      exact awake ⟨by simp [configured], park, slow⟩

theorem timerDriver_poll {input : CycleInput} {t : Option CycleTime} {ex polled : Executor W}
    (polls : poll input ex = .ok (t, polled)) :
    polled.eventDriver.timerDriver = ex.eventDriver.timerDriver.map fun timer =>
      (timer.poll input.first.instant).2 := by
  obtain ⟨mid, internal, asks⟩ := poll_ok polls
  rw [timerDriver_askIo asks, timerDriver_pollInternal internal]

/-- What the timers of a poll have to do with the time that it hands out: those that are due
at the first reading are taken out, and no others; so all that are due at that time are,
unless the I/O poll may sleep and a deadline lies between the two readings. -/
structure TimersSeen (input : CycleInput) (now : CycleTime) (mid polled : Executor W)
    (timer : TimerDriver) : Prop where
  taken : ∀ t ∈ timer.timers.entries, (∀ timer', polled.eventDriver.timerDriver = some timer' →
      timer'.contains t.1 = false) ↔
    t.1.when ≤ input.first.instant
  seen : (∀ t ∈ timer.timers.entries, t.1.when ≤ now.instant →
      ∀ timer', polled.eventDriver.timerDriver = some timer' → timer'.contains t.1 = false) ↔
    (MaySleep mid input.timeout → ∀ t ∈ timer.timers.entries, input.first.instant < t.1.when →
      input.second.instant < t.1.when)

theorem timers_seen {input : CycleInput} {now : CycleTime} {ex mid polled : Executor W} {timer : TimerDriver}
    (configured : ex.eventDriver.timerDriver = some timer)
    (internal : pollInternal input.first.instant ex = .ok mid)
    (polls : poll input ex = .ok (some now, polled)) :
    TimersSeen input now mid polled timer := by
  have driver := timerDriver_poll polls
  rw [configured] at driver
  replace driver : polled.eventDriver.timerDriver = some (timer.poll input.first.instant).2 := driver
  have taken : ∀ t ∈ timer.timers.entries, (∀ timer', polled.eventDriver.timerDriver = some timer' →
      timer'.contains t.1 = false) ↔
      t.1.when ≤ input.first.instant := by
    rintro ⟨source, r⟩ outstanding
    constructor
    · intro gone
      by_contra early
      have there := TimerDriver.mem_left_iff.mpr ⟨outstanding, Nat.lt_of_not_le early⟩
      have back := TimerDriver.contains_iff.mpr ⟨r, there⟩
      rw [gone _ driver] at back
      cases back
    · intro due timer' configured'
      rw [driver] at configured'
      cases configured'
      apply Bool.eq_false_iff.mpr
      intro held
      obtain ⟨r', left⟩ := TimerDriver.contains_iff.mp held
      exact Nat.not_le_of_lt (TimerDriver.mem_left_iff.mp left).2 due
  obtain ⟨slept, awake⟩ := time_of_poll internal polls
  refine ⟨taken, ?_, ?_⟩
  · intro seen sleeps t outstanding ahead
    by_contra due
    have reached : t.1.when ≤ now.instant := by
      rw [slept sleeps]
      exact Nat.le_of_not_lt due
    have := (taken t outstanding).mp (seen t outstanding reached)
    omega
  · intro clear t outstanding due
    apply (taken t outstanding).mpr
    by_contra early
    by_cases sleeps : MaySleep mid input.timeout
    · have := clear sleeps t outstanding (Nat.lt_of_not_le early)
      rw [slept sleeps] at due
      omega
    · rw [awake sleeps] at due
      exact early due

/-- A caller that waits, a poll at 0 and a second reading. -/
def nap (second : Nat) : CycleInput := ⟨none, ⟨0, 0⟩, ⟨second, 0⟩, some []⟩

/-- One timer is due at the poll and is taken out, so the I/O poll does not wait; the other
one stays. -/
theorem due_timers_seen :
    ∃ ex timer mid now polled left, (do (← waiting 5).execOps relay [.driver (.registerTimer (.node 0) 0)]) =
      .ok ex ∧
      ex.eventDriver.timerDriver = some timer ∧ pollInternal 0 ex = .ok mid ∧
      poll (nap 4) ex = .ok (some now, polled) ∧
      polled.eventDriver.timerDriver = some left ∧ timer.timers.entries.map (·.1.when) = [0, 5] ∧
      left.timers.entries.map (·.1.when) = [5] ∧ TimersSeen (nap 4) now mid polled timer := by
  obtain ⟨ex, timer, mid, now, polled, left, built, configured, internal, polls, stays, outstanding, later⟩ :
      ∃ ex timer mid now polled left,
        (do (← waiting 5).execOps relay [.driver (.registerTimer (.node 0) 0)]) = .ok ex ∧
        ex.eventDriver.timerDriver = some timer ∧ pollInternal 0 ex = .ok mid ∧
        poll (nap 4) ex = .ok (some now, polled) ∧
        polled.eventDriver.timerDriver = some left ∧ timer.timers.entries.map (·.1.when) = [0, 5] ∧
        left.timers.entries.map (·.1.when) = [5] :=
        ⟨_, _, _, _, _, _, rfl, rfl, rfl, rfl, rfl, by decide, by decide⟩
  exact ⟨ex, timer, mid, now, polled, left, built, configured, internal, polls, stays, outstanding, later,
    timers_seen configured internal polls⟩

/-- The I/O poll sleeps past the deadline of a timer: the nodes see a time at which it was due,
and it is still in the driver. -/
theorem waiting_sees_due_timer :
    ∃ ex mid now polled timer, waiting 5 = .ok ex ∧ pollInternal 0 ex = .ok mid ∧
      poll (nap 6) ex = .ok (some now, polled) ∧ (nap 6).first.instant ≤ (nap 6).second.instant ∧
      now.instant = 6 ∧
      polled.eventDriver.timerDriver = some timer ∧ timer.contains ⟨5, 0⟩ = true :=
  ⟨_, _, _, _, _, rfl, rfl, rfl, by decide, rfl, rfl, by decide⟩

end Executor
end Wavelet
