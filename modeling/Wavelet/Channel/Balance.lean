import Wavelet.Cleanup.Sweep
import Wavelet.Notify.Kept
import Wavelet.Wsnl.Control

/-!
# What a channel router takes

Between its push and its notification a send is accounted for by itself, afterwards by the
notification. A run of the router takes as many items as it may, or leaves none that a send
does not account for. The other steps of the executor take no notification of the router
out of the queue, nor the router out of the scheduler or the removal queue.
-/

namespace Wavelet

open Relation

variable {W K T : Type}

/-! ## The channel -/

namespace Channel.System

/-- The items in the channel. -/
def stored (s : System T) : Nat := s.chan.queue.items.length

/-- The sends between their push and their notification. -/
def notifying (s : System T) : Nat := s.calls.countP fun call => call.phase matches .notify

variable {s s' : System T}

theorem notifying_setPhase {n : Nat} {call : Call T} (at_n : s.calls[n]? = some call)
    (same : ¬ call.phase matches .notify) (phase : Phase) :
    (s.setPhase n call phase).notifying = s.notifying + if phase matches .notify then 1 else 0 := by
  obtain ⟨bound, here⟩ := List.getElem?_eq_some_iff.mp at_n
  unfold notifying setPhase
  rw [List.countP_set bound, here]
  simp [same]

theorem notifying_finish {n : Nat} {call : Call T} (at_n : s.calls[n]? = some call) :
    (s.finish n).notifying + (if call.phase matches .notify then 1 else 0) = s.notifying := by
  obtain ⟨bound, here⟩ := List.getElem?_eq_some_iff.mp at_n
  unfold notifying finish
  have perm := (List.getElem_cons_eraseIdx_perm bound).countP_eq fun call :
    Call T => call.phase matches .notify
  rw [List.countP_cons, here] at perm
  exact perm

/-- From `s` to `s'`, with so many notifications made, each new item has a notification that
was made or will be. The receiver is where it was. -/
structure Balanced (made : Nat) (s s' : System T) : Prop where
  capacity : s'.chan.queue.capacity = s.chan.queue.capacity
  receiver : s'.receiver = s.receiver
  items : s'.stored + s.notifying ≤ s.stored + s'.notifying + made

theorem Balanced.refl (s : System T) : Balanced 0 s s := ⟨rfl, rfl, Nat.le_refl _⟩

theorem Balanced.trans {a b : Nat} {s'' : System T} (first : Balanced a s s') (second : Balanced b s' s'') :
    Balanced (a + b) s s'' where
  capacity := second.capacity.trans first.capacity
  receiver := second.receiver.trans first.receiver
  items := by
    have one := first.items
    have two := second.items
    omega

/-- Moving a send that is not at its notification. -/
theorem Balanced.setPhase {n : Nat} {call : Call T} (at_n : s.calls[n]? = some call)
    (other : ¬ call.phase matches .notify) (phase : Phase) : Balanced 0 s (s.setPhase n call phase) := by
  refine ⟨rfl, rfl, ?_⟩
  rw [notifying_setPhase at_n other]
  show s.stored + _ ≤ _
  omega

theorem Balanced.finish {n : Nat} {call : Call T} (at_n : s.calls[n]? = some call) :
    Balanced (if call.phase matches .notify then 1 else 0) s (s.finish n) := by
  refine ⟨rfl, rfl, ?_⟩
  have counted := notifying_finish at_n
  show s.stored + _ ≤ _
  omega

theorem Balanced.accept {n : Nat} {call : Call T} (at_n : s.calls[n]? = some call)
    (other : ¬ call.phase matches .notify) {queue : BoundedQueue T} {evicted : Option T}
    (same : queue.capacity = s.chan.queue.capacity) (more : queue.items.length ≤ s.stored + 1) :
    Balanced 0 s ((s.accept queue call.item evicted).setPhase n call .notify) := by
  refine ⟨same, rfl, ?_⟩
  have at_n' : (s.accept queue call.item evicted).calls[n]? = some call := at_n
  rw [notifying_setPhase at_n' other]
  show queue.items.length + s.notifying ≤ s.stored + (s.notifying + 1) + 0
  omega

theorem Balanced.push {n : Nat} {call : Call T} (at_n : s.calls[n]? = some call)
    (other : ¬ call.phase matches .notify) {event : Event T} (h : s.push n call = (event, s')) :
    ¬ event.Notifies ∧ Balanced 0 s s' := by
  have fits : ∀ {queue : BoundedQueue T}, s.chan.queue.push call.item = some queue →
      Balanced 0 s ((s.accept queue call.item none).setPhase n call .notify) := by
    intro queue pushed
    obtain ⟨-, items, same⟩ := BoundedQueue.push_eq_some_iff.mp pushed
    refine .accept at_n other same ?_
    rw [items, List.length_append]
    exact Nat.le_refl _
  have finished := Balanced.finish at_n
  rw [if_neg other] at finished
  unfold System.push at h
  split at h
  · split at h
    · rename_i queue pushed
      cases h
      exact ⟨id, fits pushed⟩
    · cases h
      exact ⟨id, finished⟩
  · split at h
    · rename_i queue pushed
      cases h
      exact ⟨id, fits pushed⟩
    · cases h
      exact ⟨id, .setPhase at_n other _⟩
  · cases h
    obtain ⟨same, more⟩ := BoundedQueue.forcePush_length (q := s.chan.queue) (a := call.item) rfl
    exact ⟨id, .accept at_n other same more⟩

/-- One access of a thread that sends. -/
theorem Balanced.step {action : Action T} (sends : action.Sends) {event : Event T}
    (h : s.step action = some (event, s')) :
    Balanced (if event.Notifies then 1 else 0) s s' := by
  cases action with
  | start sender send item =>
    dsimp only [System.step] at h
    split at h
    · cases h
      refine ⟨rfl, rfl, ?_⟩
      show s.stored + _ ≤ _
      simp [notifying]
    · cases h
  | advance n =>
    obtain ⟨call, at_n, turned⟩ := Option.map_eq_some_iff.mp h
    have finished := Balanced.finish at_n
    unfold turn at turned
    split at turned
    · rename_i load
      have other : ¬ call.phase matches .notify := by rw [load]; exact Bool.false_ne_true
      split at turned
      · cases turned
        rwa [if_neg other] at finished
      · cases turned
        exact .setPhase at_n other _
    · rename_i push
      have other : ¬ call.phase matches .notify := by rw [push]; exact Bool.false_ne_true
      obtain ⟨quiet, balanced⟩ := Balanced.push at_n other turned
      rwa [if_neg quiet]
    · rename_i notify
      cases turned
      rwa [if_pos (by rw [notify])] at finished
  | clone sender =>
    dsimp only [System.step] at h
    split at h
    · cases h
      exact ⟨rfl, rfl, Nat.le_refl _⟩
    · cases h
  | drop sender =>
    dsimp only [System.step] at h
    split at h
    · cases h
      exact ⟨rfl, rfl, Nat.le_add_right _ _⟩
    · cases h
  | receive => exact sends.elim
  | dropReceiver => exact sends.elim

theorem Balanced.interfere (s : System T) (actions : List (Action T)) :
    Balanced 0 s (s.interfere actions) := by
  refine Steps.foldl_inv (p := Balanced 0 s) (fun mid action _ balanced => ?_) (.refl s)
  split
  · rename_i event next stepped
    split
    · rename_i quiet
      have turn := Balanced.step quiet.1 stepped
      rw [if_neg quiet.2] at turn
      exact balanced.trans turn
    · exact balanced
  · exact balanced

/-- What a `try_receive` leaves: there is one item less, or none without a notification to come. -/
def Took (s s' : System T) : Except TryReceiveError T → Prop
  | .ok _ => s'.stored + 1 + s.notifying ≤ s.stored + s'.notifying
  | .error .empty => s'.stored ≤ s'.notifying
  | .error .channelClosed => True

theorem tryReceive_took (idle : s.receiver = .idle) {threads : List (Action T) × List (Action T)}
    {result : Except TryReceiveError T} (h : s.tryReceive threads = (result, s')) :
    s'.chan.queue.capacity = s.chan.queue.capacity ∧ s'.receiver = .idle ∧ s.Took s' result := by
  have first := Balanced.interfere s threads.1
  have waits := first.receiver.trans idle
  unfold tryReceive receive at h
  rw [waits] at h
  dsimp only at h
  cases popped : (s.interfere threads.1).chan.queue.pop with
  | some front =>
    obtain ⟨item, queue⟩ := front
    rw [popped] at h
    cases h
    obtain ⟨items, same⟩ := BoundedQueue.pop_eq_some_iff.mp popped
    refine ⟨same.trans first.capacity, rfl, ?_⟩
    have balance := first.items
    have fewer : (s.interfere threads.1).stored = queue.items.length + 1 := by
      unfold stored
      rw [items, List.length_cons]
    show queue.items.length + 1 + s.notifying ≤ s.stored + (s.interfere threads.1).notifying
    omega
  | none =>
    rw [popped] at h
    dsimp only at h
    have empty : (s.interfere threads.1).stored = 0 := by
      unfold stored
      rw [BoundedQueue.pop_eq_none_iff.mp popped]
      rfl
    generalize waiting : ({ s.interfere threads.1 with receiver := .emptied, pushed := 0 } : System T) =
      mid at h
    have second := Balanced.interfere mid threads.2
    have emptied : (mid.interfere threads.2).receiver = .emptied := by
      rw [second.receiver, ← waiting]
    have capacity : (mid.interfere threads.2).chan.queue.capacity = s.chan.queue.capacity := by
      rw [second.capacity, ← waiting]
      exact first.capacity
    have few : (mid.interfere threads.2).stored ≤ (mid.interfere threads.2).notifying := by
      have balance := second.items
      have none : mid.stored = 0 := by
        rw [← waiting]
        exact empty
      omega
    rw [emptied] at h
    dsimp only at h
    by_cases closed : (mid.interfere threads.2).chan.senders = 0
    · rw [if_pos closed] at h
      cases h
      exact ⟨capacity, rfl, trivial⟩
    · rw [if_neg closed] at h
      cases h
      exact ⟨capacity, rfl, few⟩

/-- A run of the router that may take `n` items: it sweeps, or it takes them all, or it
leaves no item without a notification to come. -/
structure Served (n : Nat) (control : Control) (s s' : System T) : Prop where
  capacity : s'.chan.queue.capacity = s.chan.queue.capacity
  receiver : s'.receiver = .idle
  took : control = .sweep ∨
    control = .unchanged ∧ (s'.stored ≤ s'.notifying ∨ s'.stored + n + s.notifying ≤ s.stored + s'.notifying)

end Channel.System

/-! ## The run of a router -/

section Run

variable [DecidableEq K] {both : Cell W (Router K T × Channel.System T)} {route : T → K}
  {ex : Executor W} {ctx : ExecutionContext}

theorem routeItem_ok {d d' : Draft W} {item : T} (h : routeItem both.fst route ex ctx d item = .ok d') :
    d'.start = d.start ∧ both.snd.get d'.world = both.snd.get d.world := by
  unfold routeItem at h
  split at h
  · cases h
    exact ⟨rfl, rfl⟩
  · split at h
    · split at h
      · cases h
        exact ⟨rfl, by simp⟩
      · dsimp only at h
        split at h
        · cases h
        · cases h
          exact ⟨rfl, by simp⟩
    · cases h
      exact ⟨rfl, rfl⟩

theorem channelRouteLoop_ok {threads : Nat → List (Channel.Action T) × List (Channel.Action T)}
    {n : Nat} {d d' : Draft W} {control : Control}
    (h : channelRouteLoop route both ex ctx threads n d = .ok (d', control))
    (idle : (both.snd.get d.world).receiver = .idle) :
    d'.start = d.start ∧ Channel.System.Served n control (both.snd.get d.world) (both.snd.get d'.world) := by
  induction n generalizing d with
  | zero =>
    cases h
    refine ⟨rfl, rfl, idle, .inr ⟨rfl, .inr ?_⟩⟩
    omega
  | succ n ih =>
    rw [channelRouteLoop] at h
    generalize received : (both.snd.get d.world).tryReceive (threads n) = got at h
    obtain ⟨result, s⟩ := got
    obtain ⟨capacity, still, took⟩ := Channel.System.tryReceive_took idle received
    dsimp only at h
    have left : both.snd.get (d.update (both.snd.modify fun _ => s)).world = s := by simp
    split at h
    · obtain ⟨routed, handled, later⟩ := Steps.bind_ok h
      obtain ⟨start, same⟩ := routeItem_ok handled
      rw [left] at same
      obtain ⟨start', served⟩ := ih later (by rw [same]; exact still)
      rw [same] at served
      refine ⟨start'.trans start, served.capacity.trans capacity, served.receiver, ?_⟩
      rcases served.took with sweep | ⟨unchanged, few | many⟩
      · exact .inl sweep
      · exact .inr ⟨unchanged, .inl few⟩
      · refine .inr ⟨unchanged, .inr ?_⟩
        have one : s.stored + 1 + (both.snd.get d.world).notifying ≤ (both.snd.get d.world).stored +
            s.notifying := took
        omega
    · cases h
      refine ⟨rfl, ?_⟩
      rw [left]
      exact ⟨capacity, still, .inr ⟨rfl, .inl took⟩⟩
    · cases h
      refine ⟨rfl, ?_⟩
      rw [left]
      exact ⟨capacity, still, .inl rfl⟩

/-- Node `k` of the program is a channel router, whatever other threads do while it runs, and
no other code reads from its channel. -/
structure Program.RoutesChannel (prog : Program W) (both : Cell W (Router K T × Channel.System T))
    (route : T → K) (limit : Nat) (k : Key) : Prop where
  runs : ∀ ex ctx, ∃ threads, prog.cycleFn ex ctx k = channelRouteStream route both limit threads ex ctx
  spares : prog.Spares both.snd k

variable {prog : Program W} {limit : Nat} {k : Key}

namespace Executor

theorem served_of_call (routes : prog.RoutesChannel both route limit k) {now : CycleTime}
    {i : NodeIndex} {fn : CycleFn} {ex ex' : Executor W} {v : Verdict}
    (h : callCycleFn prog now i fn ex = .ok (v, ex')) (own : fn.state = k)
    (idle : (both.snd.get ex.world).receiver = .idle) :
    v.control = .sweep ∨ Channel.System.Served limit v.control (both.snd.get ex.world)
      (both.snd.get ex'.world) := by
  obtain ⟨answer, finished, after, answered, applied, ends⟩ := callCycleFn_ok prog h
  rcases ends with ⟨control, rfl, rfl, returned, rfl⟩ | ⟨rfl, -, -⟩
  · obtain ⟨threads, runs⟩ := routes.runs ex ⟨i, now, ex.epoch⟩
    rw [own, runs, channelRouteStream] at answered
    cases looped : channelRouteLoop route both ex ⟨i, now, ex.epoch⟩ threads limit (.new ex.world) with
    | error d =>
      rw [looped] at answered
      rw [← answered] at returned
      cases returned
    | ok result =>
      obtain ⟨d, last⟩ := result
      rw [looped] at answered
      rw [← answered] at returned applied
      cases returned
      obtain ⟨start, served⟩ := channelRouteLoop_ok looped idle
      have world : after.world = d.world := by
        rw [applyEffects_plain d.plain applied, Draft.world, start]
        rfl
      right
      split
      · show Channel.System.Served limit control (both.snd.get ex.world) (both.snd.get after.world)
        rw [world]
        exact served
      · show Channel.System.Served limit control (both.snd.get ex.world) (both.snd.get after.world)
        rw [world]
        exact served
  · exact .inl rfl

theorem served_of_run (routes : prog.RoutesChannel both route limit k) {now : CycleTime}
    {i : NodeIndex} {ex ex' : Executor W} {run : Run}
    (h : graphCycle prog now i ex = .ok (run, ex')) (own : run.node = k)
    (idle : (both.snd.get ex.world).receiver = .idle) :
    run.verdict.control = .sweep ∨
      Channel.System.Served limit run.verdict.control (both.snd.get ex.world) (both.snd.get ex'.world) := by
  obtain ⟨ctx, -, -, node, poisoned | spawned | built | dead⟩ := graphCycle_cases prog h
  · exact .inl (by rw [poisoned.2.1]; rfl)
  · exact served_of_call routes spawned.2.2 (node.symm.trans own) idle
  · obtain ⟨-, -, -, mid, called, rfl⟩ := built
    have dropped : both.snd.get (mid.dropHandle prog .running run.node).world = both.snd.get mid.world :=
      dropHandle_world (routes.spares.drops _) _ _ rfl
    have idle' : (both.snd.get (ex.addHandle .running run.node).world).receiver = .idle := idle
    have served := served_of_call routes called (node.symm.trans own) idle'
    rw [dropped]
    exact served
  · exact .inl (by rw [dead.2.2.2.1]; rfl)

end Executor
end Run

/-! ## What keeps the wake-ups of a router -/

namespace Executor

/-- Program code only adds to the notifications. -/
theorem notices_of_code {ex ex' : Executor W} (run : CodeRun ex ex') : ex.notices <+: ex'.notices := by
  induction run with
  | refl => exact List.prefix_refl _
  | tail _ last ih =>
    apply ih.trans
    cases last with
    | handle step =>
      cases step with
      | register t driver known grows => exact grows.map _
      | _ => exact List.prefix_refl _
    | forget driver known same =>
      show _ <+: driver.notifications.items.map (·.index)
      rw [same]
      exact List.prefix_refl _
    | _ => exact List.prefix_refl _

variable {both : Cell W (Router K T × Channel.System T)} {r : NodeIndex}

/-- From `ex` to `ex'` the router at `r` stays queued and marked, and each new item in its
channel has a notification in the queue or to come. -/
structure Minds (both : Cell W (Router K T × Channel.System T)) (r : NodeIndex)
    (ex ex' : Executor W) : Prop where
  capacity : (both.snd.get ex'.world).chan.queue.capacity = (both.snd.get ex.world).chan.queue.capacity
  receiver : (both.snd.get ex'.world).receiver = (both.snd.get ex.world).receiver
  queued : r ∈ ex.scheduler.entries → r ∈ ex'.scheduler.entries
  marked : r ∈ ex.marks → r ∈ ex'.marks
  items : (both.snd.get ex'.world).stored + (ex.notices.count r + (both.snd.get ex.world).notifying) ≤
    (both.snd.get ex.world).stored + (ex'.notices.count r + (both.snd.get ex'.world).notifying)

namespace Minds

theorem trans {a b c : Executor W} (first : Minds both r a b) (second : Minds both r b c) :
    Minds both r a c where
  capacity := second.capacity.trans first.capacity
  receiver := second.receiver.trans first.receiver
  queued queued := second.queued (first.queued queued)
  marked marked := second.marked (first.marked marked)
  items := by
    have one := first.items
    have two := second.items
    omega

/-- Steps that leave the channel alone. -/
theorem of_same {ex ex' : Executor W} (same : both.snd.get ex'.world = both.snd.get ex.world)
    (notices : ex.notices.count r ≤ ex'.notices.count r)
    (queued : r ∈ ex.scheduler.entries → r ∈ ex'.scheduler.entries)
    (marked : r ∈ ex.marks → r ∈ ex'.marks) : Minds both r ex ex' := by
  refine ⟨by rw [same], by rw [same], queued, marked, ?_⟩
  rw [same]
  omega

theorem refl (ex : Executor W) : Minds both r ex ex := of_same rfl (Nat.le_refl _) id id

theorem of_code {ex ex' : Executor W} (run : CodeRun ex ex')
    (same : both.snd.get ex'.world = both.snd.get ex.world) :
    Minds both r ex ex' :=
  of_same same ((notices_of_code run).sublist.count_le r) (mem_entries_code run)
    (((frame_of_run run).marks.map Ref.index).mem)

theorem of_offer {i : NodeIndex} {o : Offer} {ex ex' : Executor W} (h : ex.offer i = some (o, ex'))
    (event : Event) :
    Minds both r ex (ex'.log event) := by
  have world : ex'.world = ex.world := by
    rcases offer_cases h with ⟨-, rfl, -⟩ | ⟨_, -, -, -, rfl⟩ | ⟨_, -, -, -, -, rfl⟩ |
      ⟨_, -, -, -, -, -, rfl⟩ <;> rfl
  apply of_same
  · show both.snd.get ex'.world = _
    rw [world]
  · show _ ≤ (ex'.eventDriver.notifications.items.map (·.index)).count r
    rw [eventDriver_offer h]
    exact Nat.le_refl _
  · intro queued
    have queued' : r ∈ ex'.scheduler.entries := mem_entries_offer h queued
    exact queued'
  · intro marked
    show r ∈ ex'.gc.map Ref.index
    rw [gc_offer h]
    exact marked

theorem of_fire {source : Source} {s : Ref} {ex ex' : Executor W} (h : fire source ex s = .ok ex') :
    Minds both r ex ex' := by
  obtain ⟨o, mid, offered, -, rfl⟩ := fire_ok h
  exact of_offer offered _

theorem of_spread {child : NodeIndex} {ex ex' : Executor W} (h : ex.spread child = .ok ex') :
    Minds both r ex ex' := by
  obtain ⟨o, mid, offered, rfl⟩ := spread_ok h
  exact of_offer offered _

theorem of_driver (ex : Executor W) {driver : EventDriver}
    (same : driver.notifications = ex.eventDriver.notifications) :
    Minds both r ex { ex with eventDriver := driver } :=
  of_same rfl (by simp only [notices, same]; exact Nat.le_refl _) id id

theorem of_handleControl {run : Run} {ex ex' : Executor W} (h : handleControl run ex = .ok ex') :
    Minds both r ex ex' := by
  refine handleControl_inv (p := Minds both r ex) (fun s minds => minds.trans ?_)
    (fun i s s' poisoned minds => minds.trans ?_)
    (fun c s s' spreads minds => minds.trans ?_) h (refl ex)
  · exact of_same rfl
      (Nat.le_refl _) id fun marked => by simp [marks, markForSweep, log] at marked ⊢; exact .inl marked
  · obtain ⟨ctx, -, rfl⟩ := markPoisoned_ok poisoned
    exact of_same rfl (Nat.le_refl _) id id
  · exact of_spread spreads

theorem marked_of_sweep {run : Run} {ex ex' : Executor W} (h : handleControl run ex = .ok ex')
    (swept : run.Swept) :
    run.index ∈ ex'.marks := by
  have marked : run.index ∈ (ex.markForSweep .swept ⟨run.index, some run.node⟩).marks :=
    mem_marks_markForSweep.mpr (.inr rfl)
  unfold handleControl at h
  rw [show run.verdict.control = .sweep from swept] at h
  refine Steps.foldlM_inv (p := fun s : Executor W => run.index ∈ s.marks)
    (fun s c s' _ turn marked => ?_) h marked
  obtain ⟨mid, poisoned, spreads⟩ := Steps.bind_ok turn
  obtain ⟨ctx, -, rfl⟩ := markPoisoned_ok poisoned
  obtain ⟨o, last, offered, rfl⟩ := spread_ok spreads
  show run.index ∈ last.gc.map Ref.index
  rw [gc_offer offered]
  exact marked

theorem of_execOp {prog : Program W} {op : ExecOp W} {ex ex' : Executor W} (h : ex.execOp prog op = .ok ex')
    (same : both.snd.get ex'.world = both.snd.get ex.world) : Minds both r ex ex' := by
  cases op with
  | handle op => cases h; exact of_code (handleOp_run prog ex op).code same
  | driver op =>
    simp only [execOp] at h
    split at h
    · rename_i next applied
      cases h
      exact of_code (driverOp_run applied) same
    · cases h
  | build args =>
    obtain ⟨depth, graph, handles, -, -, -, rfl, -⟩ := build_ok h
    refine of_same rfl (Nat.le_refl _) (fun queued => ?_) id
    show r ∈ (ex.scheduler.enableDepth depth).entries
    rwa [Scheduler.enableDepth_entries]

end Minds

theorem notices_pushNotification {ex : Executor W} {t : Target} (room : ¬ ex.eventDriver.notifications.Full) :
    (ex.pushNotification t).notices = ex.notices ++ [(ex.ref t).index] := by
  unfold pushNotification
  dsimp only
  split
  · rename_i queue pushed
    show queue.items.map (·.index) = _
    rw [(BoundedQueue.push_eq_some_iff.mp pushed).2.1, List.map_append]
    rfl
  · rename_i refused
    exact absurd (BoundedQueue.push_eq_none_iff.mp refused) room

end Executor

end Wavelet
