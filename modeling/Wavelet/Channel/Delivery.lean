import Mathlib.Data.List.Perm.Basic
import Wavelet.Channel.Closed

/-!
# What a channel delivers

Every item that a caller hands to a send is given back to it in an error, or it enters the
queue once; a send returns `Ok` for the second kind and only then. What is in the queue leaves
it in the order in which it was pushed, to the receiver or evicted. All this is said of the
steps from any state to any later one, so it also tells which items were pushed before others.
-/

namespace Wavelet
namespace Channel

variable {α : Type}

/-- What the callers see of some steps: the items handed to sends, those given back in errors,
those whose send returned `Ok`, those received, and how many of the sends are `force_send`s. -/
structure Receipts (α : Type) where
  started : List α
  returned : List α
  confirmed : List α
  received : List α
  forced : Nat

namespace Receipts

def none : Receipts α := ⟨[], [], [], [], 0⟩

/-- The receipts of some steps, and of others after them. -/
def append (r r' : Receipts α) : Receipts α :=
  ⟨r.started ++ r'.started, r.returned ++ r'.returned, r.confirmed ++ r'.confirmed,
    r.received ++ r'.received, r.forced + r'.forced⟩

end Receipts

/-- The item of a call that has not been pushed. -/
def Call.waits (call : Call α) : Option α :=
  match call.phase with
  | .load | .push => some call.item
  | .notify => none

/-- The item of a call that has been pushed; it is about to return `Ok`. -/
def Call.confirms (call : Call α) : Option α :=
  match call.phase with
  | .load | .push => none
  | .notify => some call.item

/-- The item of a `force_send` that has not been pushed. -/
def Call.forces (call : Call α) : Option α :=
  match call.send with
  | .forceSend => call.waits
  | .trySend | .blockingSend => none

theorem Call.waits_of_unpushed {call : Call α} (phase : call.phase ≠ .notify) :
    call.waits = some call.item := by
  unfold Call.waits
  split
  · rfl
  · rfl
  · rename_i same
    exact absurd same phase

theorem Call.confirms_of_unpushed {call : Call α} (phase : call.phase ≠ .notify) : call.confirms = none := by
  unfold Call.confirms
  split
  · rfl
  · rfl
  · rename_i same
    exact absurd same phase

/-- The item went to the receiver. -/
def Fate.toReceiver : Fate × α → Option α
  | (.received, item) => some item
  | (.evicted, _) => none

def Fate.toNobody : Fate × α → Option α
  | (.received, _) => none
  | (.evicted, item) => some item

/-- What the caller of one step sees. -/
def receipt (s : System α) : Action α → Event α → Receipts α
  | .start _ .forceSend item, _ => { Receipts.none with started := [item], forced := 1 }
  | .start _ _ item, _ => { Receipts.none with started := [item] }
  | .advance n, .sent (.ok ()) => { Receipts.none with confirmed := (s.calls[n]?.map Call.item).toList }
  | .advance _, .sent (.error (.channelClosed item)) => { Receipts.none with returned := [item] }
  | .advance _, .sent (.error (.channelFull item)) => { Receipts.none with returned := [item] }
  | .receive, .received (.ok item) => { Receipts.none with received := [item] }
  | _, _ => Receipts.none

namespace System

/-- Steps from one state to another, with their receipts. -/
inductive Plays (s : System α) : Receipts α → System α → Prop
  | refl : Plays s .none s
  | step {r mid action event s'} : Plays s r mid → mid.step action = some (event, s') →
      Plays s (r.append (receipt mid action event)) s'

def waiting (s : System α) : List α := s.calls.filterMap Call.waits
def confirming (s : System α) : List α := s.calls.filterMap Call.confirms
def forcing (s : System α) : List α := s.calls.filterMap Call.forces

/-- What some steps do: `pushed` are the items that enter the queue, `gone` those that leave it. -/
structure Moves (s : System α) (r : Receipts α) (pushed : List α) (gone : List (Fate × α))
    (s' : System α) : Prop where
  sent : s'.sent = s.sent ++ pushed
  left : s'.left = s.left ++ gone
  started : (s.waiting ++ r.started).Perm (r.returned ++ pushed ++ s'.waiting)
  confirmed : (s.confirming ++ pushed).Perm (r.confirmed ++ s'.confirming)
  received : gone.filterMap Fate.toReceiver = r.received
  evicted : (gone.filterMap Fate.toNobody).length + s'.forcing.length ≤ s.forcing.length + r.forced

/-- Does the actions one by one, and collects the receipts. -/
def audit (s : System α) (r : Receipts α) : List (Action α) → Option (Receipts α × System α)
  | [] => some (r, s)
  | action :: rest =>
    (s.step action).bind fun (event, s') => s'.audit (r.append (receipt s action event)) rest

variable {s mid s' : System α} {r r' : Receipts α} {pushed pushed' : List α} {gone gone' : List (Fate × α)}

theorem Moves.trans (first : Moves s r pushed gone mid) (second : Moves mid r' pushed' gone' s') :
    Moves s (r.append r') (pushed ++ pushed') (gone ++ gone') s' where
  sent := by rw [second.sent, first.sent, List.append_assoc]
  left := by rw [second.left, first.left, List.append_assoc]
  started := by
    classical
    have one := List.perm_iff_count.mp first.started
    have two := List.perm_iff_count.mp second.started
    rw [List.perm_iff_count]
    intro a
    specialize one a
    specialize two a
    simp only [List.count_append, Receipts.append] at one two ⊢
    omega
  confirmed := by
    classical
    have one := List.perm_iff_count.mp first.confirmed
    have two := List.perm_iff_count.mp second.confirmed
    rw [List.perm_iff_count]
    intro a
    specialize one a
    specialize two a
    simp only [List.count_append, Receipts.append] at one two ⊢
    omega
  received := by rw [List.filterMap_append, first.received, second.received, Receipts.append]
  evicted := by
    have one := first.evicted
    have two := second.evicted
    rw [List.filterMap_append, List.length_append]
    simp only [Receipts.append]
    omega

/-! ## One call -/

section Call

variable {β : Type} {calls : List (Call α)} {n : Nat} {call : Call α} (f : Call α → Option β)

theorem filterMap_at (at_n : calls[n]? = some call) :
    (calls.filterMap f).Perm ((f call).toList ++ (calls.eraseIdx n).filterMap f) := by
  obtain ⟨small, here⟩ := List.getElem?_eq_some_iff.mp at_n
  have taken := (List.getElem_cons_eraseIdx_perm small).filterMap f
  rw [here] at taken
  refine taken.symm.trans ?_
  cases image : f call <;> simp [image]

theorem filterMap_set (at_n : calls[n]? = some call) (call' : Call α) :
    ((calls.set n call').filterMap f).Perm ((f call').toList ++ (calls.eraseIdx n).filterMap f) := by
  obtain ⟨small, -⟩ := List.getElem?_eq_some_iff.mp at_n
  refine ((List.set_perm_cons_eraseIdx small call').filterMap f).trans ?_
  cases image : f call' <;> simp [image]

end Call

/-- The call goes on to its next access. -/
theorem Moves.advance {n : Nat} {call : Call α} {phase : Phase} (at_n : s.calls[n]? = some call)
    (calls : mid.calls = s.calls) (sent : mid.sent = s.sent ++ pushed) (left : mid.left = s.left ++ gone)
    (started : call.waits.toList = pushed ++ (Call.waits { call with phase }).toList)
    (confirmed : call.confirms.toList ++ pushed = (Call.confirms { call with phase }).toList)
    (received : gone.filterMap Fate.toReceiver = [])
    (evicted : (gone.filterMap Fate.toNobody).length +
      (Call.forces { call with phase }).toList.length ≤ call.forces.toList.length) :
    Moves s .none pushed gone (mid.setPhase n call phase) where
  sent := sent
  left := left
  started := by
    classical
    have old := List.perm_iff_count.mp (filterMap_at Call.waits at_n)
    have new := List.perm_iff_count.mp (filterMap_set Call.waits at_n { call with phase })
    rw [List.perm_iff_count]
    intro a
    specialize old a
    specialize new a
    rw [started] at old
    simp only [waiting, setPhase, calls, Receipts.none, List.append_nil, List.nil_append,
      List.count_append] at old new ⊢
    omega
  confirmed := by
    classical
    have old := List.perm_iff_count.mp (filterMap_at Call.confirms at_n)
    have new := List.perm_iff_count.mp (filterMap_set Call.confirms at_n { call with phase })
    rw [List.perm_iff_count]
    intro a
    specialize old a
    specialize new a
    rw [← confirmed] at new
    simp only [confirming, setPhase, calls, Receipts.none, List.nil_append, List.count_append] at old new ⊢
    omega
  received := received
  evicted := by
    have old := (filterMap_at Call.forces at_n).length_eq
    have new := (filterMap_set Call.forces at_n { call with phase }).length_eq
    simp only [forcing, setPhase, calls, Receipts.none, List.length_append] at old new ⊢
    omega

/-- The call returns. -/
theorem Moves.finish {n : Nat} {call : Call α} (at_n : s.calls[n]? = some call)
    (started : call.waits.toList = r.returned) (none : r.started = [])
    (confirmed : call.confirms.toList = r.confirmed) (received : r.received = []) :
    Moves s r [] [] (s.finish n) where
  sent := (List.append_nil _).symm
  left := (List.append_nil _).symm
  started := by
    have old := filterMap_at Call.waits at_n
    rw [none, List.append_nil, List.append_nil, ← started]
    exact old
  confirmed := by
    have old := filterMap_at Call.confirms at_n
    rw [List.append_nil, ← confirmed]
    exact old
  received := received.symm
  evicted := by
    have old := (filterMap_at Call.forces at_n).length_eq
    simp only [forcing, System.finish, List.filterMap_nil, List.length_nil, List.length_append] at old ⊢
    omega

/-- No call is concerned. -/
theorem Moves.aside (calls : s'.calls = s.calls) (sent : s'.sent = s.sent) (left : s'.left = s.left ++ gone)
    (started : r.started = r.returned) (confirmed : r.confirmed = [])
    (received : gone.filterMap Fate.toReceiver = r.received)
    (evicted : gone.filterMap Fate.toNobody = []) : Moves s r [] gone s' where
  sent := by rw [sent, List.append_nil]
  left := left
  started := by
    rw [waiting, waiting, calls, started, List.append_nil]
    exact List.perm_append_comm
  confirmed := by rw [confirming, confirming, calls, confirmed, List.append_nil, List.nil_append]
  received := received
  evicted := by simp [forcing, calls, evicted]

/-! ## One step -/

/-- A push takes the item out of its call, and what it evicts out of the queue. -/
theorem Moves.accept {n : Nat} {call : Call α} (at_n : s.calls[n]? = some call)
    (phase : call.phase = .push) {queue : BoundedQueue α} {evicted : Option α}
    (few : evicted.toList.length ≤ call.forces.toList.length) :
    Moves s .none [call.item] (evicted.toList.map fun item => (.evicted, item))
      ((s.accept queue call.item evicted).setPhase n call .notify) := by
  have unpushed : call.phase ≠ .notify := by simp [phase]
  apply Moves.advance at_n
  case calls => rfl
  case sent => rfl
  case left => rfl
  case started =>
    rw [Call.waits_of_unpushed unpushed]
    rfl
  case confirmed =>
    rw [Call.confirms_of_unpushed unpushed]
    rfl
  case received => cases evicted <;> rfl
  case evicted =>
    have after : Call.forces { call with phase := Phase.notify } = none := by
      unfold Call.forces
      split <;> rfl
    rw [after]
    cases evicted with
    | none => exact few
    | some item => exact few

/-- A call goes on without a push. -/
theorem Moves.resume {n : Nat} {call : Call α} (at_n : s.calls[n]? = some call) {phase : Phase}
    (before : call.phase ≠ .notify) (after : phase ≠ .notify) :
    Moves s .none [] [] (s.setPhase n call phase) := by
  have waits : Call.waits { call with phase } = call.waits := by
    rw [Call.waits_of_unpushed before]
    exact Call.waits_of_unpushed after
  apply Moves.advance at_n
  case calls => rfl
  case sent => exact (List.append_nil _).symm
  case left => exact (List.append_nil _).symm
  case started =>
    rw [waits]
    rfl
  case confirmed =>
    have silent : Call.confirms { call with phase } = none := Call.confirms_of_unpushed after
    rw [Call.confirms_of_unpushed before, silent]
    rfl
  case received => rfl
  case evicted =>
    have same : Call.forces { call with phase } = call.forces := by
      unfold Call.forces
      rw [waits]
    rw [same]
    exact Nat.le_of_eq (Nat.zero_add _)

theorem moves_push {n : Nat} {call : Call α} (at_n : s.calls[n]? = some call) (phase : call.phase = .push) :
    ∃ pushed gone, Moves s (receipt s (.advance n) (s.push n call).1) pushed gone (s.push n call).2 := by
  unfold System.push
  cases send : call.send with
  | trySend =>
    cases taken : s.chan.queue.push call.item with
    | some queue => exact ⟨_, _, @Moves.accept α s n call at_n phase queue none (Nat.zero_le _)⟩
    | none =>
      refine ⟨_, _, Moves.finish at_n ?_ rfl ?_ rfl⟩
      · simp [Call.waits, phase, receipt]
      · simp [Call.confirms, phase, receipt, Receipts.none]
  | blockingSend =>
    cases taken : s.chan.queue.push call.item with
    | some queue => exact ⟨_, _, @Moves.accept α s n call at_n phase queue none (Nat.zero_le _)⟩
    | none => exact ⟨_, _, Moves.resume at_n (by simp [phase]) (by simp)⟩
  | forceSend =>
    cases forced : s.chan.queue.forcePush call.item with
    | mk evicted queue =>
      refine ⟨_, _, Moves.accept at_n phase ?_⟩
      cases evicted <;> simp [Call.forces, Call.waits, send, phase]

theorem moves_turn {n : Nat} {call : Call α} (at_n : s.calls[n]? = some call) :
    ∃ pushed gone, Moves s (receipt s (.advance n) (s.turn n call).1) pushed gone (s.turn n call).2 := by
  unfold System.turn
  cases phase : call.phase with
  | load =>
    dsimp only
    split
    · refine ⟨_, _, Moves.finish at_n ?_ rfl ?_ rfl⟩
      · simp [Call.waits, phase, receipt]
      · simp [Call.confirms, phase, receipt, Receipts.none]
    · exact ⟨_, _, Moves.resume at_n (by simp [phase]) (by simp)⟩
  | push => exact moves_push at_n phase
  | notify =>
    refine ⟨_, _, Moves.finish at_n ?_ rfl ?_ rfl⟩
    · simp [Call.waits, phase, receipt, Receipts.none]
    · simp [Call.confirms, phase, receipt, at_n]

theorem moves_receive {event : Event α} (h : s.receive = some (event, s')) :
    ∃ gone, Moves s (receipt s .receive event) [] gone s' := by
  unfold System.receive at h
  cases phase : s.receiver with
  | idle =>
    rw [phase] at h
    cases popped : s.chan.queue.pop with
    | none =>
      rw [popped] at h
      cases h
      exact ⟨[], .aside rfl rfl (List.append_nil _).symm rfl rfl rfl rfl⟩
    | some taken =>
      rw [popped] at h
      cases h
      exact ⟨[(.received, taken.1)], .aside rfl rfl rfl rfl rfl rfl rfl⟩
  | emptied =>
    rw [phase] at h
    dsimp only at h
    split at h
    all_goals
      cases h
      exact ⟨[], .aside rfl rfl (List.append_nil _).symm rfl rfl rfl rfl⟩
  | dropped =>
    rw [phase] at h
    cases h

/-- One atomic access, and what its caller sees. -/
theorem moves_step {action : Action α} {event : Event α} (h : s.step action = some (event, s')) :
    ∃ pushed gone, Moves s (receipt s action event) pushed gone s' := by
  cases action with
  | start sender send item =>
    dsimp only [System.step] at h
    split at h
    · cases h
      have one : (receipt s (.start sender send item) .silent).started = [item] := by cases send <;> rfl
      have none : (receipt s (.start sender send item) .silent).returned = [] ∧
          (receipt s (.start sender send item) .silent).confirmed = [] ∧
          (receipt s (.start sender send item) .silent).received = [] := by
          cases send <;> exact ⟨rfl, rfl, rfl⟩
      refine ⟨[], [], (List.append_nil _).symm, (List.append_nil _).symm, ?_, ?_, none.2.2.symm, ?_⟩
      · rw [one, none.1, waiting, waiting, List.filterMap_append]
        exact List.Perm.refl _
      · rw [none.2.1, confirming, confirming, List.filterMap_append]
        exact List.Perm.refl _
      · rw [forcing, forcing, List.filterMap_append, List.length_append]
        cases send <;> exact Nat.le_of_eq (Nat.zero_add _)
    · cases h
  | advance n =>
    obtain ⟨call, at_n, turned⟩ := Option.map_eq_some_iff.mp h
    have moves := moves_turn at_n
    rw [turned] at moves
    exact moves
  | clone sender =>
    dsimp only [System.step] at h
    split at h
    · cases h
      exact ⟨[], [], .aside rfl rfl (List.append_nil _).symm rfl rfl rfl rfl⟩
    · cases h
  | drop sender =>
    dsimp only [System.step] at h
    split at h
    · cases h
      exact ⟨[], [], .aside rfl rfl (List.append_nil _).symm rfl rfl rfl rfl⟩
    · cases h
  | receive =>
    obtain ⟨gone, moves⟩ := moves_receive h
    exact ⟨[], gone, moves⟩
  | dropReceiver =>
    dsimp only [System.step] at h
    split at h
    · cases h
      exact ⟨[], [], .aside rfl rfl (List.append_nil _).symm rfl rfl rfl rfl⟩
    · cases h

/-! ## Any number of steps -/

theorem Plays.reachable (plays : Plays s r s') (reached : Reachable s) : Reachable s' := by
  induction plays with
  | refl => exact reached
  | step _ stepped ih => exact ih.step stepped

theorem Plays.moves (plays : Plays s r s') : ∃ pushed gone, Moves s r pushed gone s' := by
  induction plays with
  | refl => exact ⟨[], [], .aside rfl rfl (List.append_nil _).symm rfl rfl rfl rfl⟩
  | step plays stepped ih =>
    obtain ⟨pushed, gone, moves⟩ := ih
    obtain ⟨pushed', gone', next⟩ := moves_step stepped
    exact ⟨_, _, moves.trans next⟩

/-- Of the items that are in flight or handed to sends: each is given back, is pushed, or is
still in flight, and only one of these; the sends of those pushed, and of no others, return
`Ok`. Items are pushed behind those that were pushed before, and leave in that order, to the
receiver unless a `force_send` evicts them. -/
theorem channel_delivers (reached : Reachable s) (plays : Plays s r s') :
    ∃ pushed gone, s'.sent = s.sent ++ pushed ∧ s'.left = s.left ++ gone ∧
      (s.waiting ++ r.started).Perm (r.returned ++ pushed ++ s'.waiting) ∧
      (s.confirming ++ pushed).Perm (r.confirmed ++ s'.confirming) ∧
      s.chan.queue.items ++ pushed = gone.map Prod.snd ++ s'.chan.queue.items ∧
      gone.filterMap Fate.toReceiver = r.received ∧
      (s.forcing.length + r.forced = 0 → gone.map Prod.snd = r.received) := by
  obtain ⟨pushed, gone, moves⟩ := plays.moves
  refine ⟨pushed, gone, moves.sent, moves.left, moves.started, moves.confirmed, ?_, moves.received,
    fun unforced => ?_⟩
  · have before := reached.sound.fifo
    have after := (plays.reachable reached).sound.fifo
    rw [moves.sent, moves.left, before, List.map_append, List.append_assoc, List.append_assoc] at after
    exact List.append_cancel_left after
  · have none : gone.filterMap Fate.toNobody = [] := by
      have few := moves.evicted
      exact List.eq_nil_of_length_eq_zero (by omega)
    rw [← moves.received]
    clear moves
    induction gone with
    | nil => rfl
    | cons first rest ih =>
      obtain ⟨fate, item⟩ := first
      cases fate with
      | received => simpa [Fate.toReceiver] using ih none
      | evicted => simp [Fate.toNobody] at none

theorem Plays.audit (plays : Plays s r mid) {actions : List (Action α)}
    (h : mid.audit r actions = some (r', s')) : Plays s r' s' := by
  induction actions generalizing r mid with
  | nil =>
    cases h
    exact plays
  | cons action rest ih =>
    obtain ⟨⟨event, next⟩, stepped, later⟩ := Option.bind_eq_some_iff.mp h
    exact ih (plays.step stepped) later

/-- One item is in the queue, which has room for one. A `try_send` gives its item back, and a
`force_send` evicts the one in the queue. -/
theorem full_channel_delivers :
    ∃ (s s' : System Nat) (r : Receipts Nat), Reachable s ∧ Plays s r s' ∧ r.started = [8, 9] ∧
      r.returned = [8] ∧ r.confirmed = [9, 7] ∧
      r.received = [9] ∧ ∃ pushed gone, s'.sent = s.sent ++ pushed ∧ s'.left = s.left ++ gone ∧
        (s.waiting ++ r.started).Perm (r.returned ++ pushed ++ s'.waiting) ∧
        (s.confirming ++ pushed).Perm (r.confirmed ++ s'.confirming) ∧
        s.chan.queue.items ++ pushed = gone.map Prod.snd ++ s'.chan.queue.items ∧
        gone.filterMap Fate.toReceiver = r.received ∧
        (s.forcing.length + r.forced = 0 → gone.map Prod.snd = r.received) := by
  obtain ⟨s, r, s', reached, audited, started, returned, confirmed, received⟩ :
      ∃ s r s', run 1 [.clone 0, .start 0 .trySend 7, .advance 0, .advance 0] = some s ∧
        s.audit .none [.start 1 .trySend 8, .advance 1, .advance 1, .start 1 .forceSend 9,
        .advance 1, .advance 1, .advance 1, .receive,
          .advance 0] = some (r, s') ∧ r.started = [8, 9] ∧ r.returned = [8] ∧
            r.confirmed = [9, 7] ∧ r.received = [9] :=
    ⟨_, _, _, rfl, rfl, rfl, rfl, rfl, rfl⟩
  have plays := Plays.refl.audit audited
  exact ⟨s, s', r, .run reached, plays, started, returned, confirmed, received,
    channel_delivers (.run reached) plays⟩

end System
end Channel
end Wavelet
