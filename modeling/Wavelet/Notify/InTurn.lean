import Wavelet.Notify.Kept
import Wavelet.Runtime.Walks

/-!
# Waiting for the drain

The drain of a cycle takes at most `poll_limit` notifications, so that a busy queue does not keep
the nodes from running. What it leaves keeps its place: nothing overtakes a notification, and the
number of those before it tells in which cycle it is taken, whatever other threads do meanwhile.
-/

namespace Wavelet
namespace Executor

open Steps

variable {W : Type} {prog : Program W}

/-- Notifications are added at the end, and the limit of the drain stays what it is. -/
structure Appends (ex ex' : Executor W) : Prop where
  items : ex.eventDriver.notifications.items <+: ex'.eventDriver.notifications.items
  limit : ex'.eventDriver.pollLimit = ex.eventDriver.pollLimit

namespace Appends

theorem of_driver {ex ex' : Executor W} (same : ex'.eventDriver = ex.eventDriver) : Appends ex ex' := by
  constructor
  · rw [same]
  · rw [same]

theorem trans {a b c : Executor W} (first : Appends a b) (second : Appends b c) : Appends a c :=
  ⟨first.items.trans second.items, second.limit.trans first.limit⟩

theorem push (ex : Executor W) (t : Target) : Appends ex (ex.pushNotification t) := by
  unfold pushNotification
  dsimp only
  split
  · rename_i queue pushed
    obtain ⟨-, items, -⟩ := BoundedQueue.push_eq_some_iff.mp pushed
    refine ⟨?_, rfl⟩
    show _ <+: queue.items
    rw [items]
    exact List.prefix_append ..
  · exact of_driver rfl

theorem handleOp {dropHandle : Executor W → Owner → Key → Executor W}
    (dropped : ∀ ex o k, Appends ex (dropHandle ex o k)) (ex : Executor W) (op : HandleOp W) :
    Appends ex (applyHandleOp dropHandle ex op) := by
  cases op with
  | update f => exact of_driver rfl
  | clone k o =>
    rw [applyHandleOp, cloneHandle]
    split <;> exact of_driver rfl
  | drop k o => cases o <;> first | exact of_driver rfl | exact dropped ex _ k
  | markForSweep t => exact of_driver rfl
  | notify t =>
    have woken : Appends (ex.pushNotification t) (ex.pushNotification t).wake := ⟨List.prefix_refl _, rfl⟩
    exact (push ex t).trans woken

theorem drop (ex : Executor W) (o : Owner) (k : Key) : Appends ex (ex.dropHandle prog o k) := by
  have deep : ∀ depth (ex : Executor W) o k, Appends ex (dropHandleWith prog depth ex o k) := by
    intro depth
    induction depth with
    | zero => exact fun _ _ _ => of_driver rfl
    | succ depth ih =>
      intro ex o k
      rw [dropHandleWith]
      split
      · simp only
        split
        · exact of_driver rfl
        · -- the destructor, then what the data holds
          have expired : Appends ex ((ex.release o k).expire k) := of_driver rfl
          apply expired.trans
          refine foldl_inv (p := Appends _) (fun s j _ before => before.trans (ih s _ j)) ?_
          exact foldl_inv (p := Appends _) (fun s op _ before => before.trans (handleOp ih s op))
            (of_driver rfl)
      · exact of_driver rfl
  exact deep _ ex o k

theorem driver {ex ex' : Executor W} {op : DriverOp} (h : ex.driverOp op = some ex') : Appends ex ex' := by
  cases op with
  | yieldNow t =>
    cases h
    exact ⟨List.prefix_refl _, rfl⟩
  | registerTimer t when =>
    obtain ⟨timer, -, rfl⟩ := Option.map_eq_some_iff.mp h
    exact ⟨List.prefix_refl _, rfl⟩
  | deregisterTimer source =>
    obtain ⟨timer, -, rfl⟩ := Option.map_eq_some_iff.mp h
    exact ⟨List.prefix_refl _, rfl⟩
  | registerIo t token =>
    obtain ⟨io, -, rfl⟩ := Option.map_eq_some_iff.mp h
    split
    · exact ⟨List.prefix_refl _, rfl⟩
    · exact of_driver rfl
  | deregisterIo token =>
    obtain ⟨io, -, rfl⟩ := Option.map_eq_some_iff.mp h
    exact ⟨List.prefix_refl _, rfl⟩

theorem effect {ex ex' : Executor W} {effect : Effect W}
    (h : ex.applyEffect prog effect = some ex') : Appends ex ex' := by
  cases effect with
  | handle op =>
    cases h
    exact handleOp drop ex op
  | driver op => exact driver h
  | scheduleNode k =>
    simp only [applyEffect, scheduleNode] at h
    split at h
    · split at h
      · cases h
        exact of_driver rfl
      · cases h
        exact of_driver rfl
      · cases h
    · cases h
      exact of_driver rfl
  | spawnSubgraph captures =>
    cases h
    refine foldl_inv (p := Appends ex) (fun s k _ before => before.trans ?_) (of_driver rfl)
    unfold cloneHandle
    split <;> exact of_driver rfl

theorem walks (prog : Program W) : Walks prog Appends where
  trans := Appends.trans
  same driver _ _ _ _ := of_driver driver
  enter _ := of_driver rfl
  drop := drop
  runs ex _ _ _ :=
    effects_inv (p := Appends ex) (fun _ _ before applied => before.trans (effect applied)) (of_driver rfl)

theorem op {op : ExecOp W} {ex ex' : Executor W} (h : ex.execOp prog op = .ok ex') : Appends ex ex' := by
  cases op with
  | handle op =>
    cases h
    exact handleOp drop ex op
  | driver op =>
    simp only [execOp] at h
    split at h
    · rename_i next applied
      cases h
      exact driver applied
    · cases h
  | build args =>
    obtain ⟨depth, graph, handles, -, -, -, rfl, -⟩ := build_ok h
    exact of_driver rfl

theorem spawn {ticket : Nat} {ex ex' : Executor W} (h : runSpawn prog ex ticket = .ok ex') :
    Appends ex ex' := by
  obtain ⟨built, ops, rfl⟩ := map_ok h
  have grown : Appends ex built :=
    foldlM_inv (p := Appends ex) (fun _ _ _ _ applied before => before.trans (op applied)) ops (of_driver rfl)
  exact grown.trans ((walks prog).owner built _)

end Appends

end Executor

namespace Machine

open Executor

variable {W : Type} {prog : Program W} {m m' : Machine W}

/-- The entries that the drain of this cycle has left to take. -/
def left (m : Machine W) : Nat :=
  match m.phase with
  | .draining _ left => left
  | _ => 0

/-- Any moves may be made. -/
abbrev plays (m : Machine W) (moves : List (Move W)) : Option (Machine W) := m.play (fun _ _ => true) moves

/-- The cycles that a list of moves begins. -/
def begun (moves : List (Move W)) : Nat := moves.countP fun
  | .cycle _ => true
  | _ => false

theorem Reachable.plays {moves : List (Move W)} (reached : Reachable (fun _ _ => True) m)
    (h : m.plays moves = some m') :
    Reachable (fun _ _ => True) m' :=
  reached.play (fun _ _ _ => trivial) h

theorem plays_cons {move : Move W} {rest : List (Move W)} (h : m.plays (move :: rest) = some m') :
    ∃ mid, m.step move = some mid ∧ mid.plays rest = some m' := by
  rw [Machine.plays, Machine.play, if_pos rfl] at h
  exact Option.bind_eq_some_iff.mp h

theorem plays_of_step {move : Move W} {rest : List (Move W)} {mid : Machine W}
    (first : m.step move = some mid) (later : mid.plays rest = some m') :
    m.plays (move :: rest) = some m' := by
  rw [Machine.plays, Machine.play, if_pos rfl]
  exact Option.bind_eq_some_iff.mpr ⟨mid, first, later⟩

theorem plays_path {moves : List (Move W)} (reached : Reachable (fun _ _ => True) m)
    (h : m.plays moves = some m') : Path m.ex m'.ex := by
  induction moves generalizing m with
  | nil =>
    cases h
    exact .refl
  | cons move rest ih =>
    obtain ⟨mid, moved, later⟩ := plays_cons h
    have reached' : Reachable (fun _ _ => True) mid := by
      obtain ⟨cfg, mode, world, run⟩ := reached
      exact ⟨cfg, mode, world, run.tail ⟨move, trivial, moved⟩⟩
    exact (step_path moved reached.orderly).2.trans (ih reached' later)

/-! ## One step -/

/-- A step that takes no entry adds to the queue, and leaves the drain where it is. -/
structure Adds (m m' : Machine W) : Prop where
  appends : m.ex.Appends m'.ex
  left : m'.left = m.left

/-- The drain is over. -/
theorem adds_of_phase {m m' : Machine W} (appends : m.ex.Appends m'.ex) (before : m.left = 0)
    (after : m'.left = 0) : Adds m m' :=
  ⟨appends, after.trans before.symm⟩

theorem appends_fires {ex ex' : Executor W} {input : CycleInput}
    (h : (ex.pollYields).bind (pollTimers input.first.instant) = .ok ex') :
    ex.Appends ex' := by
  obtain ⟨mid, yields, timers⟩ := Steps.bind_ok h
  obtain ⟨left, driver⟩ := eventDriver_drainYields yields
  have first : ex.Appends mid := by
    constructor
    · rw [driver]
    · rw [driver]
  refine first.trans ?_
  unfold pollTimers at timers
  split at timers
  · cases timers
    exact .of_driver rfl
  · obtain ⟨left', driver'⟩ := eventDriver_expireTimers timers
    constructor
    · rw [driver']
    · rw [driver']

theorem appends_askIo {ex ex' : Executor W} {input : CycleInput} {t : Option CycleTime}
    (h : askIo input ex = .ok (t, ex')) :
    ex.Appends ex' := by
  have reset : ex.Appends ex.resetWaker := ⟨List.prefix_refl _, rfl⟩
  rcases askIo_ok h with ⟨-, rfl, -⟩ | ⟨_, -, -, rfl⟩ | ⟨_, io, events, -, -, -, polled⟩
  · exact .of_driver rfl
  · exact .of_driver rfl
  · exact pollIo_inv (p := Appends ex)
      (fun r s s' fired before => before.trans (.of_driver (eventDriver_fire fired))) polled reset

/-- The moves of a cycle: the drain takes the next entry, or the queue is added to. -/
theorem next_adds (h : m.next prog = some m') :
    (∃ r queue, m.Takes r ∧ m.ex.eventDriver.notifications.pop = some (r, queue) ∧
      m'.ex.eventDriver.notifications = queue ∧
        m'.ex.eventDriver.pollLimit = m.ex.eventDriver.pollLimit ∧ m'.left + 1 = m.left) ∨
      (m.ex.eventDriver.notifications.pop = none ∧ m'.ex = m.ex ∧ m'.left = 0) ∨ Adds m m' := by
  unfold next at h
  split at h
  · cases h
  · rename_i input here
    cases h
    exact .inr (.inr (adds_of_phase (.of_driver rfl) (by rw [left, here]) rfl))
  · rename_i input count here
    unfold takeNotification at h
    split at h
    · rename_i none
      cases h
      exact .inr (.inl ⟨none, rfl, rfl⟩)
    · rename_i r queue popped
      obtain ⟨ex, fired, rfl⟩ := Option.map_eq_some_iff.mp h
      have driver := eventDriver_fire (toOption_eq_some.mp fired)
      refine .inl ⟨r, queue, ⟨input, count, queue, here, popped⟩, popped, ?_, ?_, ?_⟩
      · show ex.eventDriver.notifications = _
        rw [driver]
      · show ex.eventDriver.pollLimit = _
        rw [driver]
      · rw [left, left, here]
  · rename_i input here
    obtain ⟨ex, polled, rfl⟩ := Option.map_eq_some_iff.mp h
    exact .inr (.inr (adds_of_phase (appends_fires (toOption_eq_some.mp polled)) (by rw [left, here]) rfl))
  · rename_i input here
    obtain ⟨answer, asked, same⟩ := Option.map_eq_some_iff.mp h
    obtain ⟨t, ex⟩ := answer
    have appends := appends_askIo (toOption_eq_some.mp asked)
    cases t with
    | none =>
      cases same
      exact .inr (.inr (adds_of_phase appends (by rw [left, here]) rfl))
    | some now =>
      cases same
      exact .inr (.inr (adds_of_phase appends (by rw [left, here]) rfl))
  · rename_i now here
    obtain ⟨turn, turned, same⟩ := Option.map_eq_some_iff.mp h
    replace turned := toOption_eq_some.mp turned
    have before : m.left = 0 := by rw [left, here]
    cases turn with
    | finished ex =>
      cases same
      exact .inr (.inr (adds_of_phase ((Appends.walks prog).turn (.inl turned)) before rfl))
    | terminated ex =>
      cases same
      exact .inr (.inr (adds_of_phase ((Appends.walks prog).turn (.inr (.inl turned))) before rfl))
    | again ex =>
      cases same
      exact .inr (.inr ⟨(Appends.walks prog).turn (.inr (.inr turned)), rfl⟩)
  · rename_i here
    have before : m.left = 0 := by rw [left, here]
    split at h
    · cases h
      exact .inr (.inr (adds_of_phase (.of_driver rfl) before rfl))
    · rename_i r rest front
      cases h
      exact .inr (.inr ⟨(Appends.walks prog).removeNode m.ex rest r.index, rfl⟩)
  · rename_i here
    cases h
    exact .inr (.inr (adds_of_phase (.of_driver rfl) (by rw [left, here]) rfl))
  · rename_i ticket rest here
    obtain ⟨ex, spawned, rfl⟩ := Option.map_eq_some_iff.mp h
    have grown := Appends.spawn (toOption_eq_some.mp spawned)
    replace grown : m.ex.Appends ex := ⟨grown.items, grown.limit⟩
    exact .inr (.inr (adds_of_phase grown (by rw [left, here]) rfl))

theorem step_adds {move : Move W} (h : m.step move = some m') (within : ∀ input, move ≠ .cycle input) :
    (∃ prog r queue, move = .next prog ∧ m.Takes r ∧ m.ex.eventDriver.notifications.pop = some (r, queue) ∧
        m'.ex.eventDriver.notifications = queue ∧
        m'.ex.eventDriver.pollLimit = m.ex.eventDriver.pollLimit ∧ m'.left + 1 = m.left) ∨
      (m.ex.eventDriver.notifications.pop = none ∧ m'.ex = m.ex ∧ m'.left = 0) ∨ Adds m m' := by
  cases move with
  | push t =>
    cases h
    exact .inr (.inr ⟨Appends.push m.ex t, rfl⟩)
  | wake =>
    simp only [step] at h
    split at h
    · cases h
      exact .inr (.inr ⟨⟨List.prefix_refl _, rfl⟩, rfl⟩)
    · cases h
  | op prog op =>
    simp only [step] at h
    split at h
    · obtain ⟨ex, applied, rfl⟩ := Option.map_eq_some_iff.mp h
      exact .inr (.inr ⟨Appends.op (toOption_eq_some.mp applied), rfl⟩)
    · cases h
  | cycle input => exact absurd rfl (within input)
  | next prog =>
    refine (next_adds h).imp_left ?_
    rintro ⟨r, queue, facts⟩
    exact ⟨prog, r, queue, rfl, facts⟩

/-! ## The place in the queue -/

/-- After `n` cycles the entry is still in line, which had the entries `ahead` before it: those
that were taken are the limits of the cycles, less what this cycle's drain has left, and those
that were not are before it still, nothing between them. -/
def InLine (ahead : List Ref) (r : Ref) (limit n : Nat) (m : Machine W) : Prop :=
  m.ex.eventDriver.pollLimit = limit ∧ m.left ≤ limit ∧
    ∃ gone behind, gone + m.left = n * limit ∧ gone ≤ ahead.length ∧
      m.ex.eventDriver.notifications.items = ahead.drop gone ++ r :: behind

/-- The entry was taken: the drains have gone past its place. -/
def Past (ahead : List Ref) (limit n : Nat) (m : Machine W) : Prop :=
  m.ex.eventDriver.pollLimit = limit ∧ ahead.length + m.left < n * limit

/-- The drain takes the entry itself: nothing is before it any more. -/
structure AtFront (ahead : List Ref) (r : Ref) (limit n : Nat) (m : Machine W) : Prop where
  takes : m.Takes r
  place : ahead.length + m.left = n * limit
  turn : n = ahead.length / limit + 1

theorem InLine.step {ahead : List Ref} {r : Ref} {limit n : Nat} {move : Move W}
    (line : m.InLine ahead r limit n) (h : m.step move = some m') (within : ∀ input, move ≠ .cycle input) :
    m'.InLine ahead r limit n ∨ (∃ prog, move = .next prog) ∧ m.AtFront ahead r limit n ∧
      m'.Past ahead limit n := by
  obtain ⟨limited, fits, gone, behind, place, bound, items⟩ := line
  rcases step_adds h within with ⟨prog, head, queue, rfl, takes, popped, rest, same, fewer⟩ |
    ⟨none, -⟩ | ⟨appends, still⟩
  · have front := (BoundedQueue.pop_eq_some_iff.mp popped).1
    rw [items] at front
    rcases Nat.lt_or_eq_of_le bound with some | all
    · left
      rw [List.drop_eq_getElem_cons some, List.cons_append, List.cons.injEq] at front
      exact ⟨same.trans limited, by omega, gone + 1, behind, by omega, some, by rw [rest, ← front.2]⟩
    · -- it is the one at the front
      right
      subst all
      rw [List.drop_length, List.nil_append, List.cons.injEq] at front
      obtain ⟨rfl, -⟩ := front
      refine ⟨⟨prog, rfl⟩, ⟨takes, place, ?_⟩, same.trans limited, by omega⟩
      have room : 0 < limit := by omega
      obtain ⟨k, rfl⟩ : ∃ k, n = k + 1 := by
        cases n with
        | zero => omega
        | succ k => exact ⟨k, rfl⟩
      rw [Nat.add_mul] at place
      rw [Nat.add_right_cancel_iff]
      exact ((Nat.div_eq_iff room).mpr (by omega)).symm
  · rw [BoundedQueue.pop_eq_none_iff.mp none] at items
    simp at items
  · left
    obtain ⟨more, grown⟩ := appends.items
    exact ⟨appends.limit.trans limited, by omega, gone, behind ++ more, by omega,
      bound, by rw [← grown, items]; simp⟩

theorem InLine.early {ahead : List Ref} {r : Ref} {limit n : Nat} (line : m.InLine ahead r limit n) :
    n * limit ≤ ahead.length + m.left := by
  obtain ⟨-, -, gone, _, place, bound, -⟩ := line
  omega

theorem InLine.begin {ahead : List Ref} {r : Ref} {limit n : Nat} {input : CycleInput}
    (line : m.InLine ahead r limit n) (h : m.step (.cycle input) = some m') :
    m'.InLine ahead r limit (n + 1) := by
  obtain ⟨limited, fits, gone, behind, place, bound, items⟩ := line
  simp only [Machine.step] at h
  split at h
  · rename_i here
    cases h
    have none : m.left = 0 := by rw [left, here]
    refine ⟨limited, ?_, gone, behind, ?_, bound, items⟩
    · show m.ex.eventDriver.pollLimit ≤ limit
      omega
    · show gone + m.ex.eventDriver.pollLimit = _
      rw [Nat.add_mul, limited]
      omega
  · cases h

theorem Past.step {ahead : List Ref} {limit n : Nat} {move : Move W} (past : m.Past ahead limit n)
    (h : m.step move = some m') (within : ∀ input, move ≠ .cycle input) : m'.Past ahead limit n := by
  obtain ⟨limited, place⟩ := past
  rcases step_adds h within with ⟨_, _, _, _, -, -, -, same, fewer⟩ | ⟨-, same, ended⟩ | ⟨appends, still⟩
  · exact ⟨same.trans limited, by omega⟩
  · exact ⟨by rw [same, limited], by omega⟩
  · exact ⟨appends.limit.trans limited, by omega⟩

theorem Past.begin {ahead : List Ref} {limit n : Nat} {input : CycleInput} (past : m.Past ahead limit n)
    (h : m.step (.cycle input) = some m') : m'.Past ahead limit (n + 1) := by
  obtain ⟨limited, place⟩ := past
  simp only [Machine.step] at h
  split at h
  · cases h
    refine ⟨limited, ?_⟩
    show ahead.length + m.ex.eventDriver.pollLimit < _
    rw [Nat.add_mul, limited]
    omega
  · cases h

theorem begun_cycle (input : CycleInput) (rest : List (Move W)) :
    begun (.cycle input :: rest) = begun rest + 1 := by
  rw [begun, List.countP_cons, if_pos rfl, begun]

theorem begun_within {move : Move W} (within : ∀ input, move ≠ .cycle input)
    (rest : List (Move W)) : begun (move :: rest) = begun rest := by
  cases move with
  | cycle input => exact absurd rfl (within input)
  | _ => rw [begun, List.countP_cons, if_neg (by simp), Nat.add_zero, begun]

theorem Past.plays {ahead : List Ref} {limit n : Nat} {moves : List (Move W)}
    (past : m.Past ahead limit n) (h : m.plays moves = some m') :
    m'.Past ahead limit (n + begun moves) := by
  induction moves generalizing m n with
  | nil =>
    cases h
    exact past
  | cons move rest ih =>
    obtain ⟨mid, moved, later⟩ := plays_cons h
    by_cases within : ∀ input, move ≠ .cycle input
    · rw [begun_within within]
      exact ih (past.step moved within) later
    · push Not at within
      obtain ⟨input, rfl⟩ := within
      rw [begun_cycle, ← Nat.add_assoc, Nat.add_right_comm]
      exact ih (past.begin moved) later

theorem begun_append (first rest : List (Move W)) : begun (first ++ rest) = begun first + begun rest :=
  List.countP_append

theorem InLine.plays {ahead : List Ref} {r : Ref} {limit n : Nat} {moves : List (Move W)}
    (line : m.InLine ahead r limit n) (h : m.plays moves = some m') :
    m'.InLine ahead r limit (n + begun moves) ∨
      ∃ sooner prog later mid mid', moves = sooner ++ .next prog :: later ∧ m.plays sooner = some mid ∧
        mid.step (.next prog) = some mid' ∧ mid'.plays later = some m' ∧
        mid.InLine ahead r limit (n + begun sooner) ∧
        mid.AtFront ahead r limit (n + begun sooner) ∧ m'.Past ahead limit (n + begun moves) := by
  induction moves generalizing m n with
  | nil =>
    cases h
    exact .inl line
  | cons move rest ih =>
    obtain ⟨next, moved, later⟩ := plays_cons h
    have counted : ∀ l : List (Move W), n + begun (move :: l) = n + begun [move] + begun l := fun l => by
      rw [Nat.add_assoc, ← begun_append, List.singleton_append]
    rw [counted]
    have onwards : next.InLine ahead r limit (n + begun [move]) ∨
        (∃ prog, move = .next prog) ∧ m.AtFront ahead r limit n ∧
        next.Past ahead limit (n + begun [move]) := by
      by_cases within : ∀ input, move ≠ .cycle input
      · rw [begun_within within]
        exact line.step moved within
      · push Not at within
        obtain ⟨input, rfl⟩ := within
        rw [begun_cycle]
        exact .inl (line.begin moved)
    rcases onwards with line' | ⟨⟨prog, rfl⟩, front, past⟩
    · refine (ih line' later).imp_right ?_
      rintro ⟨sooner, prog, others, mid, mid', rfl, played, taken, rest⟩
      rw [← counted sooner] at rest
      exact ⟨move :: sooner, prog, others, mid, mid', rfl, plays_of_step moved played, taken, rest⟩
    · exact .inr ⟨[], prog, rest, m, next, rfl, rfl, moved, later, line, front, past.plays later⟩

/-- Whatever the nodes and other threads notify in the meantime, nothing overtakes a notification
that has the entries `ahead` before it: it waits in line behind what is left of them, until
the drains have taken all of them; then, in cycle `ahead / poll_limit + 1`, neither sooner nor
later, the drain takes it, and if its slot is not empty its node is queued with it. -/
theorem notification_taken_in_turn {ahead behind : List Ref} {r : Ref} {limit : Nat} {moves : List (Move W)}
    (reached : Reachable (fun _ _ => True) m) (idle : m.phase = .idle)
    (limited : m.ex.eventDriver.pollLimit = limit)
    (items : m.ex.eventDriver.notifications.items = ahead ++ r :: behind) (played : m.plays moves = some m')
    (few : m'.ex.cycles < 2 ^ 64) :
    if begun moves * limit ≤ ahead.length + m'.left then m'.InLine ahead r limit (begun moves)
    else ∃ sooner prog later mid mid', moves = sooner ++ .next prog :: later ∧ m.plays sooner = some mid ∧
      mid.step (.next prog) = some mid' ∧ mid'.plays later = some m' ∧
      mid.InLine ahead r limit (begun sooner) ∧
      mid.AtFront ahead r limit (begun sooner) ∧
      (mid.ex.keyAt r.index ≠ none → r.index ∈ mid'.ex.scheduler.entries) := by
  have none : m.left = 0 := by rw [left, idle]
  have line : m.InLine ahead r limit 0 := ⟨limited, by omega, 0, behind, by omega, Nat.zero_le _, items⟩
  rcases line.plays played with line' |
    ⟨sooner, prog, later, mid, mid', same, played', step, rest, line', front, past⟩
  · rw [Nat.zero_add] at line'
    rw [if_pos line'.early]
    exact line'
  · rw [Nat.zero_add] at line' front past
    rw [if_neg (Nat.not_le_of_lt past.2)]
    have there := reached.plays played'
    have fewer : mid.ex.cycles < 2 ^ 64 := by
      have path := plays_path there (plays_of_step step rest)
      exact Nat.lt_of_le_of_lt (Path.cycles_le path) few
    exact ⟨sooner, prog, later, mid, mid', same, played', step, rest, line', front,
      front.takes.schedules (there.fresh fewer) step⟩

/-- A drain that takes one entry. -/
def strict : Machine Unit := withConfig { ioEnabled := false, timerEnabled := false, pollLimit := 1 } .spin ()

/-- Node 0 is notified behind node 1, which is notified again while the first cycle runs. -/
def patient : List (Move Unit) :=
  [.cycle Executor.instantly, .next Executor.relay, .push (.node 1), .wake] ++
    List.replicate 7 (.next Executor.relay) ++
    [.cycle Executor.instantly, .next Executor.relay]

theorem patient_taken_in_turn :
    ∃ m m', strict.plays (builds ++ [.push (.node 1), .wake, .push (.node 0), .wake]) = some m ∧
      m.plays patient = some m' ∧
      ∃ sooner prog later mid mid', patient = sooner ++ .next prog :: later ∧ m.plays sooner = some mid ∧
        mid.step (.next prog) = some mid' ∧ mid'.plays later = some m' ∧
        mid.InLine [⟨1, some 1⟩] ⟨0, some 0⟩ 1 (begun sooner) ∧
        mid.AtFront [⟨1, some 1⟩] ⟨0, some 0⟩ 1 (begun sooner) ∧
        (mid.ex.keyAt 0 ≠ none → 0 ∈ mid'.ex.scheduler.entries) := by
  obtain ⟨m, m', prepared, played, idle, items, limit, few, drained⟩ :
      ∃ m m', strict.plays (builds ++ [.push (.node 1), .wake, .push (.node 0), .wake]) = some m ∧
        m.plays patient = some m' ∧ m.phase = .idle ∧
        m.ex.eventDriver.notifications.items = [⟨1, some 1⟩] ++ ⟨0, some 0⟩ :: [] ∧
        m.ex.eventDriver.pollLimit = 1 ∧
        m'.ex.cycles < 2 ^ 64 ∧ m'.left = 0 := ⟨_, _, rfl, rfl, rfl, rfl, rfl, by decide, rfl⟩
  have reached : Reachable (fun _ _ => True) m := (Reachable.initial ..).plays prepared
  have taken := notification_taken_in_turn reached idle limit items played few
  rw [drained, if_neg (by decide)] at taken
  exact ⟨m, m', prepared, played, taken⟩

end Machine
end Wavelet
