import Mathlib.Algebra.Order.Ring.Nat
import Wavelet.Lib.BoundedQueue
import Wavelet.Lib.OrderedMap
import Wavelet.Runtime.Graph

/-!
# Clocks and event sources

The data of `event_driver.rs` and its three drivers. A pending event is a node index; the
model also keeps, as a ghost that no operation reads, the node the index was taken from
(`Ref.node`). Times are nanoseconds. `mio`, the clocks and the slab's choice of a free
token stay parameters of the operations.
-/

namespace Wavelet

structure CycleTime where
  instant : Nat
  unixTime : Int
  deriving DecidableEq, Repr

/-- The trait `Clock`: a reading and the clock afterwards. -/
structure Clock (C : Type*) where
  cycleTime : C → CycleTime × C

inductive ExecutionMode where
  | spin
  | park
  deriving DecidableEq, Repr

/-- An index as the event sources and the removal queue hold it, with the node it was
taken from. -/
structure Ref where
  index : NodeIndex
  node : Option Key
  deriving DecidableEq, Repr

/-! ## Timers -/

structure TimerSource where
  when : Nat
  id : Nat
  deriving DecidableEq, Repr

/-- The derived order: by time, then by id. -/
def TimerSource.Before (a b : TimerSource) : Prop := a.when < b.when ∨ a.when = b.when ∧ a.id < b.id

instance : DecidableRel TimerSource.Before := fun a b => inferInstanceAs (Decidable (a.when < b.when ∨ _))

instance : IsTrans TimerSource TimerSource.Before where
  trans a b c := by unfold TimerSource.Before; omega

instance : Std.Trichotomous TimerSource.Before where
  trichotomous a b := by
    obtain ⟨when, id⟩ := a
    obtain ⟨when', id'⟩ := b
    simp only [TimerSource.Before, TimerSource.mk.injEq]
    omega

structure TimerDriver where
  timers : OrderedMap TimerSource Ref TimerSource.Before
  sequence : Nat

namespace TimerDriver

def new : TimerDriver := ⟨.empty, 0⟩

def registerTimer (d : TimerDriver) (r : Ref) (when : Nat) : TimerDriver :=
  ⟨d.timers.insert ⟨when, d.sequence⟩ r, (d.sequence + 1) % 2 ^ 64⟩

def deregisterTimer (d : TimerDriver) (source : TimerSource) : TimerDriver :=
  { d with timers := d.timers.erase source }

def nextTimer (d : TimerDriver) : Option Nat := d.timers.first.map (·.1.when)

def refs (d : TimerDriver) : List Ref := d.timers.entries.map (·.2)

/-- The nodes of the timers whose deadline is not after `now`. -/
def due (d : TimerDriver) (now : Nat) : List Ref :=
  (d.timers.entries.filter fun t => t.1.when ≤ now).map (·.2)

theorem nextTimer_eq_none {d : TimerDriver} (empty : d.timers.entries = []) : d.nextTimer = none := by
  unfold nextTimer OrderedMap.first
  rw [empty]
  rfl

theorem due_cons {d : TimerDriver} {source : TimerSource} {r : Ref}
    {rest : OrderedMap TimerSource Ref TimerSource.Before} {now : Nat}
    (popped : d.timers.popFirst = some ((source, r), rest)) (due : source.when ≤ now) :
    d.due now = r :: TimerDriver.due { d with timers := rest } now := by
  have entries := OrderedMap.popFirst_eq_some_iff.mp popped
  simp [TimerDriver.due, entries, due]

/-- No timer comes before the first one. -/
theorem due_eq_nil {d : TimerDriver} {now : Nat}
    (early : ∀ source r rest, d.timers.popFirst = some ((source, r), rest) → now < source.when) :
    d.due now = [] := by
  simp only [due, List.map_eq_nil_iff, List.filter_eq_nil_iff, decide_eq_true_eq]
  intro t member
  cases popped : d.timers.popFirst with
  | none =>
    rw [OrderedMap.popFirst_eq_none_iff.mp popped] at member
    cases member
  | some first =>
    obtain ⟨⟨source, r⟩, rest⟩ := first
    have entries := OrderedMap.popFirst_eq_some_iff.mp popped
    have sorted := d.timers.sorted
    have late := early source r rest popped
    rw [entries] at member sorted
    rcases List.mem_cons.mp member with rfl | later
    · exact Nat.not_le_of_lt late
    · have after := (List.pairwise_cons.mp sorted).1 t later
      unfold TimerSource.Before at after
      dsimp only at after
      omega

end TimerDriver

/-! ## I/O -/

/-- What one `mio` poll reports: its own waker token, or a registered source. -/
inductive IoEvent where
  | waker
  | source (token : Nat)
  deriving DecidableEq, Repr

/-- The slab from tokens to nodes. -/
structure IoDriver where
  indices : List (Nat × Ref)
  deriving DecidableEq, Repr

def IoDriver.lookup (d : IoDriver) (token : Nat) : Option Ref :=
  (d.indices.find? fun e => e.1 = token).map (·.2)

def IoDriver.refs (d : IoDriver) : List Ref := d.indices.map (·.2)

/-- The nodes of the sources that `mio` reported. -/
def IoDriver.ready (d : IoDriver) (events : List IoEvent) : List Ref :=
  events.filterMap fun event =>
    match event with
    | .waker => none
    | .source token => d.lookup token

theorem IoDriver.mem_of_lookup {d : IoDriver} {token : Nat} {r : Ref}
    (h : d.lookup token = some r) : r ∈ d.refs := by
  simp only [lookup, Option.map_eq_some_iff] at h
  obtain ⟨e, found, rfl⟩ := h
  exact List.mem_map.mpr ⟨e, List.mem_of_find?_eq_some found, rfl⟩

/-! ## The driver -/

theorem defaultCapacity_pos : 0 < 256 := by decide

/-- `ArrayQueue::new` panics on capacity zero. -/
structure EventDriverConfig where
  ioEnabled : Bool := true
  timerEnabled : Bool := true
  notificationCapacity : Nat := 256
  pollLimit : Nat := 16
  capacity_pos : 0 < notificationCapacity := by exact defaultCapacity_pos

/-- `waker` is the readiness of `mio`'s waker: `wake` sets it, the next I/O poll that
returns takes it back. -/
structure EventDriver where
  ioDriver : Option IoDriver
  timerDriver : Option TimerDriver
  yieldDriver : List Ref
  notifications : BoundedQueue Ref
  pollLimit : Nat
  mode : ExecutionMode
  waker : Bool

namespace EventDriver

def withConfig (cfg : EventDriverConfig) (mode : ExecutionMode) : EventDriver where
  ioDriver := if cfg.ioEnabled then some ⟨[]⟩ else none
  timerDriver := if cfg.timerEnabled then some .new else none
  yieldDriver := []
  notifications := .empty cfg.notificationCapacity
  pollLimit := cfg.pollLimit
  mode := mode
  waker := false

def timerRefs (d : EventDriver) : List Ref := (d.timerDriver.map (·.refs)).getD []

def ioRefs (d : EventDriver) : List Ref := (d.ioDriver.map (·.refs)).getD []

/-- Every pending event or registration. -/
def refs (d : EventDriver) : List Ref := d.yieldDriver ++ d.notifications.items ++ d.timerRefs ++ d.ioRefs

theorem mem_refs_iff {d : EventDriver} {r : Ref} :
    r ∈ d.refs ↔ r ∈ d.yieldDriver ∨ r ∈ d.notifications.items ∨ r ∈ d.timerRefs ∨ r ∈ d.ioRefs := by
  simp [refs]

@[simp] theorem refs_withConfig (cfg : EventDriverConfig) (mode : ExecutionMode) :
    (withConfig cfg mode).refs = [] := by
  unfold refs timerRefs ioRefs withConfig
  split <;> split <;> rfl

/-- `MINIMUM_TIMER_PRECISION`. -/
def minimumTimerPrecision : Nat := 1000000

/-- The timeout that `slow_poll` hands to the I/O poll; the subtraction saturates. -/
def effectiveTimeout (d : EventDriver) (now : Nat) (timeout : Option Nat) : Option Nat :=
  match d.timerDriver, timeout with
  | some timer, some t =>
    match timer.nextTimer with
    | some deadline => some (max (min t (deadline - now)) minimumTimerPrecision)
    | none => some t
  | some timer, none => timer.nextTimer.map (· - now)
  | none, t => t

/-- A caller that waits has the I/O poll wait, unless a timer is due. -/
theorem effectiveTimeout_ne_zero {d : EventDriver} {now : Nat} {timeout : Option Nat}
    (waits : timeout ≠ some 0)
    (later : ∀ timer deadline, d.timerDriver = some timer → timer.nextTimer = some deadline →
      now < deadline) :
    d.effectiveTimeout now timeout ≠ some 0 := by
  unfold effectiveTimeout
  split
  · rename_i timer t configured
    cases timer.nextTimer with
    | none => exact waits
    | some deadline =>
      intro zero
      have precise := Nat.le_max_right (min t (deadline - now)) minimumTimerPrecision
      rw [Option.some.inj zero] at precise
      exact absurd precise (by decide)
  · rename_i timer configured
    cases next : timer.nextTimer with
    | none => exact fun no => by cases no
    | some deadline =>
      have ahead := later timer deadline configured next
      intro zero
      have : deadline - now = 0 := Option.some.inj zero
      omega
  · exact waits

end EventDriver

end Wavelet
