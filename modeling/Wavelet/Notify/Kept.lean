import Wavelet.Cycle.Order
import Wavelet.Notify.Machine
import Wavelet.Runtime.Lineage
import Wavelet.Runtime.Ownership

/-!
# Notifications in the queue

A push to a full notification queue is dropped. As long as every notification of a node of
the graph finds room, or finds the node's index in the queue already, none is lost: from
the push on the index stays in the queue until the drain takes it. The drain schedules the
node at once, unless an earlier cycle has left the scheduler's cursor below it: then the
drain panics.
-/

namespace Wavelet

/-- The notification, if it is for a node of the graph, is in the queue after the call. -/
def Event.Keeps : Event → Prop
  | .notified _ _ kept => kept = true
  | _ => True

instance : DecidablePred Event.Keeps
  | .notified _ _ kept => inferInstanceAs (Decidable (kept = true))
  | .began | .built .. | .registered .. | .fired .. | .spread .. | .manual .. | .ran _
  | .terminated | .poisoned _ | .dropped _ | .marked .. | .removed _ => .isTrue trivial

/-- The slots and nodes notified since the drain last took an entry for the slot. -/
def owed : List Event → List (NodeIndex × Key)
  | [] => []
  | .notified r (some k) _ :: past => (r.index, k) :: owed past
  | .fired .notification r _ _ _ :: past => (owed past).filter fun p => p.1 ≠ r.index
  | _ :: past => owed past

namespace Executor

variable {W : Type}

/-- A notification of a node that is still there waits in the queue. -/
def NothingLost (ex : Executor W) : Prop :=
  ∀ i k, (i, k) ∈ owed ex.trace → ex.keyAt i = some k → i ∈ ex.notices

instance (ex : Executor W) : Decidable ex.NothingLost :=
  decidable_of_iff (∀ p ∈ owed ex.trace, ex.keyAt p.1 = some p.2 → p.1 ∈ ex.notices)
    ⟨fun all i k member => all (i, k) member, fun all p => all p.1 p.2⟩

/-- What one step does to the notifications: it owes nothing new and takes nothing that is
still owed, or it is the push of a `notify`. -/
theorem Micro.owed {ex ex' : Executor W} (step : Micro ex ex') :
    (∀ p ∈ owed ex'.trace, p ∈ owed ex.trace ∧ (p.1 ∈ ex.notices → p.1 ∈ ex'.notices)) ∨
    ∃ r kept, ex' = ex.noted r kept ∧ (kept = true → ex.keyAt r.index = none ∨ r.index ∈ ex.notices) := by
  cases step with
  | code step =>
    cases step with
    | handle step =>
      cases step with
      | noted r kept fits => exact .inr ⟨r, kept, rfl, fits⟩
      | register t driver known grows =>
        exact .inl fun p member => ⟨member, fun queued => (grows.map _).mem queued⟩
      | _ => exact .inl fun p member => ⟨member, id⟩
    | forget driver known same =>
      refine .inl fun p member => ⟨member, fun queued => ?_⟩
      show p.1 ∈ driver.notifications.items.map (·.index)
      rw [same]
      exact queued
    | _ => exact .inl fun p member => ⟨member, id⟩
  | fire source driver r known sub takes fired =>
    have driver' := eventDriver_fire fired
    obtain ⟨o, mid, offered, -, rfl⟩ := fire_ok fired
    have trace := trace_offer offered
    replace trace : mid.trace = ex.trace := trace
    refine .inl fun p member => ?_
    show _ ∧ (_ → p.1 ∈ mid.eventDriver.notifications.items.map (·.index))
    replace driver' : mid.eventDriver = driver := driver'
    rw [driver', ← trace]
    cases source with
    | notification =>
      obtain ⟨old, other⟩ := List.mem_filter.mp member
      refine ⟨old, fun queued => ?_⟩
      have front : ex.eventDriver.notifications.items = r :: driver.notifications.items := takes
      rw [notices, front, List.map_cons, List.mem_cons] at queued
      exact queued.resolve_left (of_decide_eq_true other)
    | yield | timer | io =>
      have same : driver.notifications = ex.eventDriver.notifications := takes
      rw [same]
      exact ⟨member, id⟩
  | poison i poisoned =>
    obtain ⟨ctx, there, rfl⟩ := markPoisoned_ok poisoned
    exact .inl fun p member => ⟨member, id⟩
  | spread child spreads =>
    obtain ⟨o, mid, offered, rfl⟩ := spread_ok spreads
    have trace : mid.trace = ex.trace := trace_offer offered
    have driver : mid.eventDriver = ex.eventDriver := eventDriver_offer offered
    refine .inl fun p member => ⟨by rw [← trace]; exact member, fun queued => ?_⟩
    show p.1 ∈ mid.eventDriver.notifications.items.map (·.index)
    rw [driver]
    exact queued
  | _ => exact .inl fun p member => ⟨member, id⟩

/-- Nothing is lost, and no node is in a slot or notified that was not built. -/
structure Ledger (ex : Executor W) : Prop where
  placed : ∀ i k, ex.keyAt i = some k → k < ex.inners.length
  known : ∀ p ∈ owed ex.trace, p.2 < ex.inners.length
  kept : ex.NothingLost

/-- Steps other than a push. -/
theorem Ledger.quiet {ex ex' : Executor W} (ledger : ex.Ledger) (step : Micro ex ex')
    (quiet : ∀ p ∈ owed ex'.trace, p ∈ owed ex.trace ∧ (p.1 ∈ ex.notices → p.1 ∈ ex'.notices)) :
    ex'.Ledger := by
  rcases step.slots with ⟨same, nodes, -⟩ | ⟨r, rest, j, -, there, -, rfl⟩ |
    ⟨args, depth, graph, rfl, vacant, slots⟩
  · have slots := keyAt_of_same same
    constructor
    case placed =>
      intro i k here
      rw [slots] at here
      rw [nodes]
      exact ledger.placed i k here
    case known =>
      intro p member
      rw [nodes]
      exact ledger.known p (quiet p member).1
    case kept =>
      intro i k member here
      rw [slots] at here
      exact (quiet (i, k) member).2 (ledger.kept i k (quiet (i, k) member).1 here)
  · have left : ∀ i k,
        (log { ex with gc := rest, graph := ex.graph.removeNode r.index } (.removed j)).keyAt i = some k →
          ex.keyAt i = some k := fun i k here => (keyAt_of_removeNode here).2
    exact ⟨fun i k here => ledger.placed i k (left i k here),
      fun p member => ledger.known p (quiet p member).1,
      fun i k member here => (quiet (i, k) member).2
        (ledger.kept i k (quiet (i, k) member).1 (left i k here))⟩
  · have nodes : (ex.insertNode args depth graph).inners.length = ex.inners.length + 1 :=
      List.length_append ..
    constructor
    case placed =>
      intro i k here
      rw [slots] at here
      rw [nodes]
      split at here
      · cases here
        exact Nat.lt_succ_self _
      · exact Nat.lt_succ_of_lt (ledger.placed i k here)
    case known =>
      intro p member
      rw [nodes]
      exact Nat.lt_succ_of_lt (ledger.known p (quiet p member).1)
    case kept =>
      intro i k member here
      have old := (quiet (i, k) member).1
      rw [slots] at here
      split at here
      · -- the new node has not been notified yet
        cases here
        exact absurd (ledger.known _ old) (Nat.lt_irrefl _)
      · exact (quiet (i, k) member).2 (ledger.kept i k old here)

/-- The push of a `notify`. -/
theorem Ledger.noted {ex : Executor W} (ledger : ex.Ledger) {r : Ref} {kept : Bool} (keeps : kept = true)
    (fits : kept = true → ex.keyAt r.index = none ∨ r.index ∈ ex.notices) : (ex.noted r kept).Ledger := by
  have owes : ∀ p ∈ Wavelet.owed (ex.noted r kept).trace, p ∈ Wavelet.owed ex.trace ∨
      p.1 = r.index ∧ ex.keyAt r.index = some p.2 := by
    intro p member
    unfold Executor.noted log at member
    cases here : ex.keyAt r.index with
    | none =>
      rw [here] at member
      exact .inl member
    | some k =>
      rw [here] at member
      rcases List.mem_cons.mp member with rfl | old
      · exact .inr ⟨rfl, rfl⟩
      · exact .inl old
  refine ⟨ledger.placed, fun p member => ?_, fun i k member here => ?_⟩
  · rcases owes p member with old | ⟨-, here⟩
    · exact ledger.known p old
    · exact ledger.placed r.index p.2 here
  · rcases owes (i, k) member with old | ⟨same, there⟩
    · exact ledger.kept i k old here
    · replace same : i = r.index := same
      subst same
      rcases fits keeps with vacant | queued
      · rw [vacant] at there
        cases there
      · exact queued

theorem Micro.ledger {ex ex' : Executor W} (step : Micro ex ex') (keeps : ex'.All Event.Keeps)
    (ledger : ex.Ledger) :
    ex'.Ledger := by
  rcases step.owed with quiet | ⟨r, kept, rfl, fits⟩
  · exact ledger.quiet step quiet
  · exact ledger.noted (keeps _ List.mem_cons_self) fits

theorem Path.ledger {ex ex' : Executor W} (path : Path ex ex') (keeps : ex'.All Event.Keeps)
    (ledger : ex.Ledger) :
    ex'.Ledger :=
  Steps.run_inv_of (p := Ledger) (fun _ _ step keeps => keeps.earlier step)
    (fun _ _ step => step.ledger) path keeps ledger

theorem ledger_withConfig (cfg : EventDriverConfig) (mode : ExecutionMode) (world : W) :
    (withConfig cfg mode world).Ledger where
  placed _ _ no := by cases no
  known _ no := by cases no
  kept _ _ no := by cases no

/-- The condition is exact: a push that finds no room, for a node whose index is not in the
queue, loses the notification. -/
theorem pushNotification_lost {ex : Executor W} {t : Target} (loses : ¬ ex.Keeps (ex.ref t).index) :
    ¬ (ex.pushNotification t).NothingLost := by
  unfold Keeps at loses
  rw [not_or, not_or, not_not] at loses
  obtain ⟨occupied, full, absent⟩ := loses
  obtain ⟨k, here⟩ := Option.ne_none_iff_exists'.mp occupied
  have refused : ex.eventDriver.notifications.push (ex.ref t) = none := BoundedQueue.push_eq_none_iff.mpr full
  intro kept
  unfold pushNotification at kept
  simp only [refused] at kept
  refine absent (kept (ex.ref t).index k ?_ here)
  unfold noted log
  rw [here]
  exact List.mem_cons_self

end Executor

namespace Machine

variable {W : Type} {prog : Program W} {m m' : Machine W}

/-- The executor enters the drain through `cycle` and stays there by taking an entry. -/
theorem next_draining {input : CycleInput} {left : Nat} (h : m.next prog = some m')
    (here : m'.phase = .draining input left) :
    m.phase = .draining input (left + 1) ∧ ∃ r queue, m.ex.eventDriver.notifications.pop = some (r, queue) ∧
      Executor.fire .notification
        { m.ex with eventDriver := { m.ex.eventDriver with notifications := queue } } r = .ok m'.ex := by
  unfold next at h
  split at h
  · cases h
  · cases h; cases here
  · rename_i before
    unfold takeNotification at h
    split at h
    · cases h; cases here
    · rename_i r queue popped
      obtain ⟨ex, fired, rfl⟩ := Option.map_eq_some_iff.mp h
      cases here
      exact ⟨before, r, queue, popped, toOption_eq_some.mp fired⟩
  · obtain ⟨ex, -, rfl⟩ := Option.map_eq_some_iff.mp h
    cases here
  · obtain ⟨⟨t, ex⟩, -, same⟩ := Option.map_eq_some_iff.mp h
    cases t <;> cases same <;> cases here
  · rename_i before
    obtain ⟨turn, -, same⟩ := Option.map_eq_some_iff.mp h
    cases turn with
    | finished ex => cases same; cases here
    | terminated ex => cases same; cases here
    | again ex =>
      cases same
      rw [show m.phase = _ from before] at here
      cases here
  · rename_i before
    split at h
    · cases h; cases here
    · cases h
      rw [show m.phase = _ from before] at here
      cases here
  · cases h; cases here
  · obtain ⟨ex, -, rfl⟩ := Option.map_eq_some_iff.mp h
    cases here

/-- In the drain, the nodes with the stamp of the epoch are those it has scheduled. -/
def Fresh (m : Machine W) : Prop := ∀ input left, m.phase = .draining input left →
  ∀ i ctx, m.ex.graph.nodeWeight i = some ctx → ctx.schedEpoch = m.ex.epoch → i ∈ m.ex.scheduler.entries

/-- An entry that the drain takes without a panic: node `i`, if it has the stamp, is queued. -/
theorem fire_scheduled {i : NodeIndex} {r : Ref} {ex ex' : Executor W}
    (h : Executor.fire .notification ex r = .ok ex')
    (fresh : ∀ ctx, ex.graph.nodeWeight i = some ctx → ctx.schedEpoch = ex.epoch → i ∈ ex.scheduler.entries) :
    (∀ ctx, ex'.graph.nodeWeight i = some ctx → ctx.schedEpoch = ex'.epoch → i ∈ ex'.scheduler.entries) ∧
      (r.index = i → ex.keyAt i ≠ none → i ∈ ex'.scheduler.entries) := by
  obtain ⟨o, mid, offered, refuses, rfl⟩ := Executor.fire_ok h
  show (∀ ctx, mid.graph.nodeWeight i = some ctx → ctx.schedEpoch = mid.epoch → i ∈ mid.scheduler.entries) ∧
    (_ → _ → i ∈ mid.scheduler.entries)
  rcases Executor.offer_cases offered with ⟨-, rfl, vacant⟩ | ⟨ctx, there, seen, -, rfl⟩ |
    ⟨_, -, -, -, rfl, -⟩ |
    ⟨ctx, there, -, -, bound, -, rfl⟩
  · refine ⟨fresh, fun own occupied => absurd ?_ occupied⟩
    rw [Executor.keyAt, ← own, vacant]
    rfl
  · refine ⟨fresh, fun own _ => fresh ctx ?_ seen⟩
    rw [← own]
    exact there
  · exact absurd (refuses rfl) (fun no => by cases no)
  · have queued : r.index ∈ (ex.scheduler.enqueue r.index ctx.depth).entries :=
      (Scheduler.mem_enqueue bound ..).mpr (.inr rfl)
    refine ⟨fun w here seen => ?_, fun own _ => ?_⟩
    · replace here : (ex.graph.setWeight r.index { ctx with schedEpoch := ex.epoch }).nodeWeight i = some w :=
        here
      rw [Graph.nodeWeight_setWeight there] at here
      split at here
      · rename_i same
        rw [same]
        exact queued
      · exact (Scheduler.mem_enqueue bound ..).mpr (.inl (fresh w here seen))
    · rw [← own]
      exact queued

theorem Fresh.step {move : Move W} (fresh : m.Fresh) (stamped : m.ex.Stamped) (few : m'.ex.cycles < 2 ^ 64)
    (h : m.step move = some m') : m'.Fresh := by
  have handles : ∀ {ex : Executor W}, Executor.HandleRun m.ex ex → ∀ waking, Fresh ⟨ex, m.phase, waking⟩ := by
    intro ex run waking input left here i ctx there seen
    have frame := Executor.frame_of_run run.code
    replace there : ex.graph.nodeWeight i = some ctx := there
    replace seen : ctx.schedEpoch = ex.epoch := seen
    rw [frame.graph] at there
    rw [frame.epoch] at seen
    show i ∈ ex.scheduler.entries
    rw [Executor.scheduler_of_handleRun run]
    exact fresh input left here i ctx there seen
  cases move with
  | push t => cases h; exact handles (Executor.pushNotification_run m.ex t) _
  | wake =>
    simp only [Machine.step] at h
    split at h
    · cases h
      exact handles (.single .wake) _
    · cases h
  | op prog op =>
    simp only [Machine.step] at h
    split at h
    · rename_i idle
      obtain ⟨ex, -, rfl⟩ := Option.map_eq_some_iff.mp h
      intro input left here
      rw [show m.phase = _ from idle] at here
      cases here
    · cases h
  | cycle input =>
    simp only [Machine.step] at h
    split at h
    · cases h
      intro _ _ _ i ctx there seen
      have count : m.ex.beginCycle.cycles = m.ex.cycles + 1 := List.count_cons_self
      exact absurd seen (stamped.fresh (by rw [← count]; exact few) i ctx there)
    · cases h
  | next prog =>
    intro input left here i
    obtain ⟨before, r, queue, -, fired⟩ := next_draining h here
    exact (fire_scheduled fired (fresh input (left + 1) before i)).1

theorem Reachable.fresh {allowed : Machine W → Move W → Prop} (reached : Reachable allowed m)
    (few : m.ex.cycles < 2 ^ 64) :
    m.Fresh := by
  obtain ⟨cfg, mode, world, run⟩ := reached
  induction run with
  | refl => exact fun _ _ no => by cases no
  | tail run last ih =>
    obtain ⟨move, -, moved⟩ := last
    have before : Reachable allowed _ := ⟨cfg, mode, world, run⟩
    have fewer := Nat.lt_of_le_of_lt (Executor.Path.cycles_le (step_path moved before.orderly).2) few
    obtain ⟨cfg', mode', world', path⟩ := before.path
    have stamped := Executor.Path.stamped path fewer ⟨rfl, fun _ _ there => by cases there⟩
    exact (ih fewer).step stamped few moved

/-- The drain takes the entry at the front. -/
def Takes (r : Ref) (m : Machine W) : Prop :=
  ∃ input left queue, m.phase = .draining input (left + 1) ∧
    m.ex.eventDriver.notifications.pop = some (r, queue)

/-- The node of the entry that the drain takes next is scheduled in this cycle already, or
the cursor of the scheduler has not passed it. -/
def Admits (m : Machine W) : Prop :=
  ∀ r ctx, m.Takes r → m.ex.graph.nodeWeight r.index = some ctx → ctx.schedEpoch ≠ m.ex.epoch →
    m.ex.scheduler.currDepth ≤ ctx.depth

/-- The drain takes its next entry without a panic, and schedules the node if there is one. -/
def Delivers (m : Machine W) : Prop :=
  ∀ r prog, m.Takes r → ∃ m', m.step (.next prog) = some m' ∧
    (m.ex.keyAt r.index ≠ none → r.index ∈ m'.ex.scheduler.entries)

/-- What a step of the drain is. -/
theorem Takes.step {r : Ref} (takes : m.Takes r) : ∃ input left driver, m.phase = .draining input (left + 1) ∧
    ∀ prog, m.step (.next prog) =
    (Executor.fire .notification { m.ex with eventDriver := driver } r).toOption.map
      fun ex => { m with ex, phase := .draining input left } := by
  obtain ⟨input, left, queue, here, popped⟩ := takes
  refine ⟨input, left, { m.ex.eventDriver with notifications := queue }, here, fun prog => ?_⟩
  simp only [Machine.step, next, here, takeNotification, popped]

/-- A step of the drain schedules the node of its entry. -/
theorem Takes.schedules {r : Ref} (takes : m.Takes r) (fresh : m.Fresh) (h : m.step (.next prog) = some m')
    (occupied : m.ex.keyAt r.index ≠ none) : r.index ∈ m'.ex.scheduler.entries := by
  obtain ⟨input, left, driver, here, steps⟩ := takes.step
  rw [steps] at h
  obtain ⟨ex, fired, rfl⟩ := Option.map_eq_some_iff.mp h
  exact (fire_scheduled (toOption_eq_some.mp fired) (fresh input (left + 1) here r.index)).2 rfl occupied

/-- An entry is offered without a panic exactly if the cursor has not passed its node, or the
node is scheduled already. -/
theorem fire_ok_iff {ex : Executor W} {r : Ref} (enabled : ex.Enabled) :
    (∃ ex', Executor.fire .notification ex r = .ok ex') ↔
    ∀ ctx, ex.graph.nodeWeight r.index = some ctx → ctx.schedEpoch ≠ ex.epoch →
    ex.scheduler.currDepth ≤ ctx.depth := by
  constructor
  · intro fires ctx there unstamped
    obtain ⟨ex', fired⟩ := fires
    obtain ⟨o, mid, offered, refuses, -⟩ := Executor.fire_ok fired
    rcases Executor.offer_cases offered with ⟨-, -, vacant⟩ | ⟨other, here, seen, -⟩ |
      ⟨_, -, -, -, rfl, -⟩ | ⟨other, here, -, low, -⟩
    · rw [vacant] at there
      cases there
    · rw [there] at here
      cases here
      exact absurd seen unstamped
    · exact absurd (refuses rfl) (fun no => by cases no)
    · rw [there] at here
      cases here
      exact low
  · intro admits
    unfold Executor.fire
    split
    · rename_i past
      exact absurd past (enabled.offer _)
    · rename_i o mid offered
      split
      · rcases Executor.offer_cases offered with ⟨no, -⟩ | ⟨_, -, -, no, -⟩ |
          ⟨ctx, there, unstamped, above, -⟩ |
          ⟨_, -, -, -, -, no, -⟩
        · cases no
        · cases no
        · have low := admits ctx there unstamped
          omega
        · cases no
      · exact ⟨_, rfl⟩

/-- The drain delivers its next entry exactly if the scheduler admits the node. -/
theorem delivers_iff_admits (fresh : m.Fresh) (enabled : m.ex.Enabled) : m.Delivers ↔ m.Admits := by
  constructor
  · intro delivers r ctx takes
    obtain ⟨input, left, driver, -, steps⟩ := takes.step
    obtain ⟨m', moved, -⟩ := delivers r ⟨fun _ _ _ => ([], .panic), fun _ _ => [], fun _ _ => []⟩ takes
    rw [steps] at moved
    obtain ⟨ex, fired, -⟩ := Option.map_eq_some_iff.mp moved
    exact (@fire_ok_iff W { m.ex with eventDriver := driver } r enabled).mp
      ⟨ex, toOption_eq_some.mp fired⟩ ctx
  · intro admits r prog takes
    obtain ⟨input, left, driver, -, steps⟩ := takes.step
    obtain ⟨ex, fired⟩ :=
      (@fire_ok_iff W { m.ex with eventDriver := driver } r enabled).mpr fun ctx => admits r ctx takes
    have moved : m.step (.next prog) = some { m with ex, phase := .draining input left } := by
      rw [steps, fired]
      rfl
    exact ⟨_, moved, takes.schedules fresh moved⟩

theorem Reachable.enabled {allowed : Machine W → Move W → Prop} (reached : Reachable allowed m) :
    m.ex.Enabled := by
  obtain ⟨cfg, mode, world, path⟩ := reached.path
  exact path.enabled fun _ _ _ there => by cases there

/-- While every notification finds room or its index in the queue, none is lost: it waits in
the queue until the drain takes it, which then schedules its node, exactly if the cursor of
the scheduler has not passed the node. -/
theorem notifications_kept (reached : Reachable (fun _ _ => True) m) (keeps : m.ex.All Event.Keeps)
    (few : m.ex.cycles < 2 ^ 64) : m.ex.NothingLost ∧ (m.Delivers ↔ m.Admits) := by
  obtain ⟨cfg, mode, world, path⟩ := reached.path
  exact ⟨(Executor.Path.ledger path keeps (Executor.ledger_withConfig ..)).kept,
    delivers_iff_admits (reached.fresh few) reached.enabled⟩

/-! ## Two nodes and a short queue -/

/-- An executor whose notification queue has `capacity` entries. -/
def small (capacity : Nat) (room : 0 < capacity) : Machine Unit :=
  withConfig { ioEnabled := false, timerEnabled := false, notificationCapacity := capacity, capacity_pos := room } .spin ()

def unchecked (_ : Machine Unit) (_ : Move Unit) : Bool := true

def builds : List (Move Unit) :=
  [.op Executor.relay (.build { index := 0 }), .op Executor.relay (.build { index := 1 })]

/-- Both nodes are notified, node 0 again while the drain is at work. -/
def busy : List (Move Unit) :=
  [.push (.node 1), .push (.node 0), .wake, .cycle Executor.instantly, .next Executor.relay,
    .push (.node 0), .wake, .wake]

theorem busy_notifications_kept :
    ∃ m m', (small 2 (by decide)).play unchecked (builds ++ busy) = some m ∧ m.Takes ⟨0, some 0⟩ ∧
    m.ex.NothingLost ∧ m.Delivers ∧ m.play unchecked (List.replicate 10 (.next Executor.relay)) = some m' ∧
    m'.phase = .idle ∧
    m'.ex.runs.map (·.index) = [0, 1] := by
  obtain ⟨m, played, takes, keeps, few, top⟩ :
      ∃ m, (small 2 (by decide)).play unchecked (builds ++ busy) = some m ∧
      m.Takes ⟨0, some 0⟩ ∧ m.ex.All Event.Keeps ∧ m.ex.cycles < 2 ^ 64 ∧ m.ex.scheduler.currDepth = 0 :=
    ⟨_, rfl, ⟨_, _, _, rfl, rfl⟩, by decide, by decide, rfl⟩
  have kept := notifications_kept (.play (fun _ _ _ => trivial) (Reachable.initial ..) played) keeps few
  have delivers := kept.2.mpr fun _ _ _ _ _ => by omega
  cases played
  exact ⟨_, _, rfl, takes, kept.1, delivers, rfl, rfl, rfl⟩

/-- The notification of node 1 fills the queue of capacity 1, that of node 0 is dropped. -/
def crowded : List (Move Unit) :=
  [.push (.node 1), .wake, .push (.node 0), .wake, .cycle Executor.instantly] ++
    List.replicate 8 (.next Executor.relay)

theorem crowded_notification_lost : ∃ m, (small 1 (by decide)).play unchecked (builds ++ crowded) = some m ∧
    Reachable (fun _ _ => True) m ∧ m.phase = .idle ∧ m.ex.Present 0 ∧
    m.ex.runs.map (·.index) = [1] ∧ ¬ m.ex.NothingLost :=
  have played : (small 1 (by decide)).play unchecked (builds ++ crowded) = some _ := rfl
  ⟨_, played, .play (fun _ _ _ => trivial) (Reachable.initial ..) played, rfl, by decide, rfl, by decide⟩

end Machine
end Wavelet
