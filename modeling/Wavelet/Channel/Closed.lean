import Wavelet.Channel.State

/-!
# Closed channels

`try_receive` makes two observations: the queue is empty, and then no sender is left. The
second one is exact, and a channel that it reports closed has no sender and no send in
flight. The first may be out of date: a sender that pushes and is dropped in between leaves
its item in the queue of a channel that is reported closed.
-/

namespace Wavelet
namespace Channel

variable {α : Type}

theorem fetchAdd_eq {n : Nat} (small : n ≤ maxRefcount) : fetchAdd n = n + 1 := by
  unfold fetchAdd
  unfold maxRefcount at small
  exact Nat.mod_eq_of_lt (by omega)

theorem fetchSub_eq {n : Nat} (positive : 0 < n) : fetchSub n = n - 1 := if_neg (Nat.ne_of_gt positive)

namespace System

variable {s s' : System α}

/-- The invariant of the interleavings. -/
structure Sound (s : System α) : Prop where
  room : 0 < s.chan.queue.capacity
  few : s.alive.length ≤ 2 ^ 63
  counted : s.chan.senders = s.alive.length
  borrowed : ∀ call ∈ s.calls, call.sender ∈ s.alive
  /-- Items leave in the order in which they were sent. -/
  fifo : s.sent = s.left.map Prod.snd ++ s.chan.queue.items
  /-- What the receiver's empty pop saw is true until the next push. -/
  emptied : s.receiver = .emptied → (s.chan.queue.items = [] ↔ s.pushed = 0)

theorem Sound.new {capacity : Nat} (h : System.new capacity = some s) : s.Sound := by
  obtain ⟨chan, made, rfl⟩ := Option.map_eq_some_iff.mp h
  unfold Channel.new at made
  split at made
  · cases made
  · rename_i positive
    cases made
    refine ⟨Nat.pos_of_ne_zero positive, by simp, rfl, by simp, rfl, fun no => by cases no⟩

theorem Sound.finish (sound : s.Sound) (n : Nat) : (s.finish n).Sound :=
  { sound with borrowed := fun call member => sound.borrowed call (List.mem_of_mem_eraseIdx member) }

theorem Sound.setPhase (sound : s.Sound) {n : Nat} {call : Call α} (at_n : s.calls[n]? = some call)
    (phase : Phase) :
    (s.setPhase n call phase).Sound := by
  refine { sound with borrowed := fun other member => ?_ }
  rcases List.mem_or_eq_of_mem_set member with old | rfl
  · exact sound.borrowed other old
  · exact sound.borrowed call (List.mem_of_getElem? at_n)

theorem Sound.accept (sound : s.Sound) {queue : BoundedQueue α} {item : α} {evicted : Option α}
    (moved : s.chan.queue.items ++ [item] = evicted.toList ++ queue.items) (filled : queue.items ≠ [])
    (same : queue.capacity = s.chan.queue.capacity) : (s.accept queue item evicted).Sound where
  room := same ▸ sound.room
  few := sound.few
  counted := sound.counted
  borrowed := sound.borrowed
  fifo := by
    have fates : (evicted.toList.map fun item => (Fate.evicted, item)).map Prod.snd = evicted.toList := by
      rw [List.map_map]
      exact List.map_id _
    show s.sent ++ [item] = _
    rw [sound.fifo, List.append_assoc, moved, ← List.append_assoc]
    simp only [System.accept, List.map_append, fates]
  emptied _ := by
    constructor
    · intro none
      exact absurd none filled
    · intro none
      exact absurd none (Nat.succ_ne_zero _)

theorem Sound.accept_push (sound : s.Sound) {queue : BoundedQueue α} {item : α}
    (pushed : s.chan.queue.push item = some queue) : (s.accept queue item none).Sound := by
  obtain ⟨-, items, same⟩ := BoundedQueue.push_eq_some_iff.mp pushed
  apply sound.accept
  · exact items.symm
  · rw [items]
    exact List.append_ne_nil_of_right_ne_nil _ (List.cons_ne_nil _ _)
  · exact same

theorem Sound.push (sound : s.Sound) {n : Nat} {call : Call α} (at_n : s.calls[n]? = some call) :
    (s.push n call).2.Sound := by
  unfold System.push
  cases call.send with
  | trySend =>
    cases pushed : s.chan.queue.push call.item with
    | none => exact sound.finish n
    | some queue => exact (sound.accept_push pushed).setPhase at_n .notify
  | blockingSend =>
    cases pushed : s.chan.queue.push call.item with
    | none => exact sound.setPhase at_n .load
    | some queue => exact (sound.accept_push pushed).setPhase at_n .notify
  | forceSend =>
    cases forced : s.chan.queue.forcePush call.item with
    | mk evicted queue =>
      obtain ⟨moved, filled, same⟩ := BoundedQueue.forcePush_items sound.room forced
      exact (sound.accept moved filled same).setPhase at_n .notify

theorem Sound.turn (sound : s.Sound) {n : Nat} {call : Call α} (at_n : s.calls[n]? = some call) :
    (s.turn n call).2.Sound := by
  unfold System.turn
  cases call.phase with
  | load =>
    dsimp only
    split
    · exact sound.finish n
    · exact sound.setPhase at_n .push
  | push => exact sound.push at_n
  | notify => exact sound.finish n

theorem Sound.receive (sound : s.Sound) {event : Event α} (h : s.receive = some (event, s')) : s'.Sound := by
  unfold System.receive at h
  cases phase : s.receiver with
  | idle =>
    rw [phase] at h
    cases popped : s.chan.queue.pop with
    | none =>
      have empty := BoundedQueue.pop_eq_none_iff.mp popped
      rw [popped] at h
      cases h
      exact { sound with emptied := fun _ => ⟨fun _ => rfl, fun _ => empty⟩ }
    | some taken =>
      obtain ⟨item, queue⟩ := taken
      obtain ⟨items, same⟩ := BoundedQueue.pop_eq_some_iff.mp popped
      rw [popped] at h
      cases h
      refine { sound with
        room := same ▸ sound.room
        fifo := ?_
        emptied := fun no => by cases no }
      rw [List.map_append, List.append_assoc, sound.fifo, items]
      rfl
  | emptied =>
    rw [phase] at h
    dsimp only at h
    split at h
    all_goals
      cases h
      exact { sound with emptied := fun no => by cases no }
  | dropped =>
    rw [phase] at h
    cases h

/-- One atomic access keeps the invariant. -/
theorem Sound.step (sound : s.Sound) {action : Action α} {event : Event α}
    (h : s.step action = some (event, s')) :
    s'.Sound := by
  cases action with
  | start sender send item =>
    dsimp only [System.step] at h
    split at h
    · rename_i live
      cases h
      refine { sound with borrowed := fun call member => ?_ }
      rcases List.mem_append.mp member with old | new
      · exact sound.borrowed call old
      · rw [List.mem_singleton.mp new]
        exact live
    · cases h
  | advance n =>
    obtain ⟨call, at_n, turned⟩ := Option.map_eq_some_iff.mp h
    have kept := sound.turn at_n
    rw [turned] at kept
    exact kept
  | clone sender =>
    dsimp only [System.step] at h
    split at h
    · rename_i allowed
      have few : s.alive.length ≤ maxRefcount := by omega
      cases h
      refine { sound with few := ?_, counted := ?_, borrowed := fun call member => ?_ }
      · unfold maxRefcount at few
        rw [List.length_append, List.length_singleton]
        omega
      · rw [sound.counted, fetchAdd_eq few, List.length_append, List.length_singleton]
      · exact List.mem_append_left _ (sound.borrowed call member)
    · cases h
  | drop sender =>
    dsimp only [System.step] at h
    split at h
    · rename_i allowed
      obtain ⟨live, free⟩ := allowed
      have fewer := List.length_erase_of_mem live
      have few := sound.few
      cases h
      refine { sound with few := ?_, counted := ?_, borrowed := fun call member => ?_ }
      · rw [fewer]
        omega
      · rw [sound.counted, fetchSub_eq (List.length_pos_of_mem live), fewer]
      · exact (List.mem_erase_of_ne (free call member)).mpr (sound.borrowed call member)
    · cases h
  | receive => exact sound.receive h
  | dropReceiver =>
    dsimp only [System.step] at h
    split at h
    · cases h
      exact { sound with emptied := fun no => by cases no }
    · cases h

theorem Reachable.sound (reached : Reachable s) : s.Sound := by
  induction reached with
  | new made => exact Sound.new made
  | step _ stepped ih => exact ih.step stepped

/-- Nothing can be sent any more, and every item ever sent was received or evicted. -/
structure Drained (s : System α) : Prop where
  dropped : s.alive = []
  returned : s.calls = []
  empty : s.chan.queue.items = []
  settled : s.sent = s.left.map Prod.snd

/-- Only a load of sender count zero reports a closed channel. -/
theorem closed_load {action : Action α} (h : s.step action = some (.received (.error .channelClosed), s')) :
    s.receiver = .emptied ∧ s.chan.senders = 0 ∧ s' = { s with receiver := .idle } := by
  cases action with
  | receive =>
    dsimp only [System.step] at h
    unfold System.receive at h
    split at h
    · split at h <;> cases h
    · rename_i phase
      split at h
      · rename_i zero
        cases h
        exact ⟨phase, zero, rfl⟩
      · cases h
    · cases h
  | advance n =>
    obtain ⟨call, -, turned⟩ := Option.map_eq_some_iff.mp h
    unfold System.turn System.push at turned
    exfalso
    revert turned
    cases call.phase <;> cases call.send <;> dsimp only <;> (try split) <;> intro turned <;> cases turned
  | start | clone | drop | dropReceiver =>
    dsimp only [System.step] at h
    split at h <;> cases h

/-- A channel that is reported closed has no senders, and it is drained if and only if no
item was pushed between the receiver's empty pop and its load of the sender count. -/
theorem closed_drained_iff (reached : Reachable s) {action : Action α}
    (closed : s.step action = some (.received (.error .channelClosed), s')) :
    s'.alive = [] ∧ s'.calls = [] ∧ (s'.Drained ↔ s.pushed = 0) := by
  have sound := reached.sound
  obtain ⟨phase, zero, rfl⟩ := closed_load closed
  have dropped : s.alive = [] := List.eq_nil_of_length_eq_zero (sound.counted ▸ zero)
  have returned : s.calls = [] := by
    apply List.eq_nil_iff_forall_not_mem.mpr
    intro call member
    have live := sound.borrowed call member
    rw [dropped] at live
    cases live
  refine ⟨dropped, returned, fun drained => ?_, fun quiet => ?_⟩
  · exact (sound.emptied phase).mp drained.empty
  · have empty := (sound.emptied phase).mpr quiet
    have settled := sound.fifo
    rw [empty, List.append_nil] at settled
    exact ⟨dropped, returned, empty, settled⟩

/-! ## A clean close and a lossy one -/

/-- One item is sent and received, and its sender is dropped before the next pop. -/
def clean : List (Action Nat) :=
  [.start 0 .trySend 7, .advance 0, .advance 0, .advance 0, .receive, .drop 0, .receive]

/-- The receiver's pop comes before the send, its load after the drop. -/
def lossy : List (Action Nat) :=
  [.receive, .start 0 .trySend 7, .advance 0, .advance 0, .advance 0, .drop 0]

theorem clean_closed_drained : ∃ s s' : System Nat, Reachable s ∧
    s.step .receive = some (.received (.error .channelClosed), s') ∧ s'.sent = [7] ∧ s'.Drained :=
  have played : run 1 clean = some _ := rfl
  have closed : step _ .receive = some (.received (.error .channelClosed), _) := rfl
  ⟨_, _, .run played, closed, rfl, (closed_drained_iff (.run played) closed).2.2.mpr rfl⟩

/-- The item of the second run is in the queue when the channel is reported closed. -/
theorem lossy_closed_not_drained : ¬ ∀ (s s' : System Nat) (action : Action Nat), Reachable s →
    s.step action = some (.received (.error .channelClosed), s') → s'.Drained :=
  have played : run 1 lossy = some _ := rfl
  have closed : step _ .receive = some (.received (.error .channelClosed), _) := rfl
  fun claim => absurd (claim _ _ _ (.run played) closed).empty (List.cons_ne_nil 7 [])

end System
end Channel
end Wavelet
