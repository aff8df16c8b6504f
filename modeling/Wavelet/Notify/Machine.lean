import Wavelet.Runtime.Reachable

/-!
# Notifiers and an executor, interleaved

Any number of threads call `notify` while the executor goes through its cycles. A call is
two steps, its push and its wake. A cycle is cut where it takes an entry out of the
notification queue, where it enters and leaves the I/O poll, and between two turns of its
loops; what it does in between reaches the queue only through the notifications that the
program's own operations push. Left alone, the machine does what `cycle` does.
-/

namespace Wavelet

/-- Where the executor is: between two calls of `cycle`, in the drain of the notifications
with so many entries left to take, before the other sources, in the I/O poll, in the node
loop, in the sweep loop, or at the deferred subgraphs. -/
inductive Phase where
  | idle
  | draining (input : CycleInput) (left : Nat)
  | polling (input : CycleInput)
  | asking (input : CycleInput)
  | running (now : CycleTime)
  | sweeping
  | spawning (tickets : List Nat)

/-- `waking` counts the calls of `notify` that are between their push and their wake. -/
structure Machine (W : Type) where
  ex : Executor W
  phase : Phase
  waking : Nat

/-- `push` and `wake` are made by any thread, the others by the executor's. -/
inductive Move (W : Type) where
  | push (t : Target)
  | wake
  | op (prog : Program W) (op : ExecOp W)
  | cycle (input : CycleInput)
  | next (prog : Program W)

namespace Machine

variable {W : Type}

def withConfig (cfg : EventDriverConfig) (mode : ExecutionMode) (world : W) : Machine W :=
  ⟨.withConfig cfg mode world, .idle, 0⟩

/-- One entry of the notifications. -/
def takeNotification (input : CycleInput) (left : Nat) (m : Machine W) : Option (Machine W) :=
  match m.ex.eventDriver.notifications.pop with
  | none => some { m with phase := .polling input }
  | some (r, queue) =>
    (Executor.fire .notification
      { m.ex with eventDriver := { m.ex.eventDriver with notifications := queue } } r).toOption.map
        fun ex => { m with ex, phase := .draining input left }

/-- The executor's next step inside `cycle`, `none` when it panics. -/
def next (prog : Program W) (m : Machine W) : Option (Machine W) :=
  match m.phase with
  | .idle => none
  | .draining input 0 => some { m with phase := .polling input }
  | .draining input (left + 1) => m.takeNotification input left
  | .polling input =>
    ((m.ex.pollYields).bind (Executor.pollTimers input.first.instant)).toOption.map
      fun ex => { m with ex, phase := .asking input }
  | .asking input =>
    (m.ex.askIo input).toOption.map fun
      | (none, ex) => { m with ex, phase := .idle }
      | (some now, ex) => { m with ex, phase := .running now }
  | .running now =>
    (Executor.nodeStep prog now m.ex).toOption.map fun
      | .finished ex => { m with ex, phase := .sweeping }
      | .terminated ex => { m with ex, phase := .idle }
      | .again ex => { m with ex }
  | .sweeping =>
    match m.ex.gc with
    | [] => some { m with phase := .spawning m.ex.deferredSpawns }
    | r :: rest => some { m with ex := Executor.removeNode prog { m.ex with gc := rest } r.index }
  | .spawning [] => some { m with phase := .idle }
  | .spawning (ticket :: rest) =>
    (Executor.runSpawn prog { m.ex with deferredSpawns := rest } ticket).toOption.map
      fun ex => { m with ex, phase := .spawning rest }

def step (m : Machine W) : Move W → Option (Machine W)
  | .push t => some { m with ex := m.ex.pushNotification t, waking := m.waking + 1 }
  | .wake => if 0 < m.waking then some { m with ex := m.ex.wake, waking := m.waking - 1 } else none
  | .op prog op =>
    match m.phase with
    | .idle => (m.ex.execOp prog op).toOption.map fun ex => { m with ex }
    | _ => none
  | .cycle input =>
    match m.phase with
    | .idle => some { m with ex := m.ex.beginCycle, phase := .draining input m.ex.eventDriver.pollLimit }
    | _ => none
  | .next prog => m.next prog

/-- A step that is made where it is allowed. -/
def Moves (allowed : Machine W → Move W → Prop) (m m' : Machine W) : Prop :=
  ∃ move, allowed m move ∧ m.step move = some m'

open Relation

/-- The interleavings of an executor's cycles and any calls of `notify`. -/
def Reachable (allowed : Machine W → Move W → Prop) (m : Machine W) : Prop :=
  ∃ cfg mode world, ReflTransGen (Moves allowed) (withConfig cfg mode world) m

/-- Makes the moves one by one, as long as each passes the check. -/
def play (check : Machine W → Move W → Bool) (m : Machine W) : List (Move W) → Option (Machine W)
  | [] => some m
  | move :: rest => if check m move then (m.step move).bind (·.play check rest) else none

theorem Reachable.initial {allowed : Machine W → Move W → Prop} (cfg : EventDriverConfig)
    (mode : ExecutionMode) (world : W) :
    Reachable allowed (withConfig cfg mode world) :=
  ⟨cfg, mode, world, .refl⟩

theorem Reachable.play {allowed : Machine W → Move W → Prop} {check : Machine W → Move W → Bool}
    (sound : ∀ m move, check m move = true → allowed m move) {m m' : Machine W} {moves : List (Move W)}
    (reached : Reachable allowed m) (h : m.play check moves = some m') : Reachable allowed m' := by
  induction moves generalizing m with
  | nil => cases h; exact reached
  | cons move rest ih =>
    rw [Machine.play] at h
    split at h
    · rename_i checked
      obtain ⟨mid, first, later⟩ := Option.bind_eq_some_iff.mp h
      obtain ⟨cfg, mode, world, run⟩ := reached
      exact ih ⟨cfg, mode, world, run.tail ⟨move, sound m move checked, first⟩⟩ later
    · cases h

theorem toOption_eq_some {ε α : Type*} {x : Except ε α} {a : α} : x.toOption = some a ↔ x = .ok a := by
  cases x <;> simp [Except.toOption]

/-! ## A cycle without interference -/

/-- The steps of the executor alone. -/
abbrev Alone (prog : Program W) : Machine W → Machine W → Prop :=
  ReflTransGen fun m m' => m.next prog = some m'

variable (prog : Program W) {waking : Nat}

theorem drain_alone {input : CycleInput} {n : Nat} {ex ex' : Executor W}
    (h : Executor.drainNotifications n ex = .ok ex') :
    Alone prog ⟨ex, .draining input n, waking⟩ ⟨ex', .polling input, waking⟩ := by
  induction n generalizing ex with
  | zero =>
    cases h
    exact .single rfl
  | succ n ih =>
    rw [Executor.drainNotifications] at h
    split at h
    · rename_i none
      cases h
      refine .single ?_
      simp only [next, takeNotification, none]
    · rename_i r queue popped
      obtain ⟨mid, fired, rest⟩ := Steps.bind_ok h
      refine .head ?_ (ih rest)
      simp only [next, takeNotification, popped, fired]
      rfl

theorem loop_alone {now : CycleTime} {exit : Exit} {ex ex' : Executor W}
    (h : Executor.Loop prog now ex exit ex') :
    exit = .running ∧ Alone prog ⟨ex, .running now, waking⟩ ⟨ex', .sweeping, waking⟩ ∨
      exit = .terminated ∧ Alone prog ⟨ex, .running now, waking⟩ ⟨ex', .idle, waking⟩ := by
  induction h with
  | finished step =>
    refine .inl ⟨rfl, .single ?_⟩
    simp only [next, step]
    rfl
  | terminated step =>
    refine .inr ⟨rfl, .single ?_⟩
    simp only [next, step]
    rfl
  | again step _ ih =>
    rename_i before after _ _ _
    have first : next prog ⟨before, .running now, waking⟩ = some ⟨after, .running now, waking⟩ := by
      simp only [next, step]
      rfl
    exact ih.imp (fun ⟨same, rest⟩ => ⟨same, .head first rest⟩) (fun ⟨same, rest⟩ => ⟨same, .head first rest⟩)

theorem sweep_alone {fuel : Nat} {ex ex' : Executor W} (h : Executor.sweepLoop prog fuel ex = .ok ex') :
    Alone prog ⟨ex, .sweeping, waking⟩ ⟨ex', .spawning ex'.deferredSpawns, waking⟩ := by
  induction fuel generalizing ex with
  | zero => cases h
  | succ fuel ih =>
    rw [Executor.sweepLoop] at h
    split at h
    · rename_i empty
      cases h
      refine .single ?_
      simp only [next, empty]
    · rename_i r rest front
      refine .head ?_ (ih h)
      simp only [next, front]

theorem spawns_alone {tickets : List Nat} {ex ex' : Executor W}
    (h : Executor.runSpawns prog tickets ex = .ok ex') :
    Alone prog ⟨ex, .spawning tickets, waking⟩ ⟨ex', .idle, waking⟩ := by
  induction tickets generalizing ex with
  | nil =>
    cases h
    exact .single rfl
  | cons ticket rest ih =>
    obtain ⟨mid, spawned, later⟩ := Steps.bind_ok h
    refine .head ?_ (ih later)
    simp only [next, spawned]
    rfl

/-- Up to the I/O poll's answer. -/
theorem poll_alone {input : CycleInput} {t : Option CycleTime} {ex ex' : Executor W}
    (h : Executor.poll input ex = .ok (t, ex')) :
    Alone prog ⟨ex, .draining input ex.eventDriver.pollLimit, waking⟩
      ⟨ex', match t with | none => .idle | some now => .running now, waking⟩ := by
  obtain ⟨mid, internal, asks⟩ := Executor.poll_ok h
  obtain ⟨drained, yielded, notes, yields, timers⟩ := Executor.pollInternal_ok internal
  refine (drain_alone prog notes).trans (.head (b := ⟨mid, .asking input, waking⟩) ?_ (.single ?_))
  · have both : drained.pollYields.bind (Executor.pollTimers input.first.instant) = .ok mid := by
      rw [yields]
      exact timers
    simp only [next, both]
    rfl
  · simp only [next, asks]
    cases t <;> rfl

/-- Left alone, the machine does what `cycle` does. -/
theorem cycle_alone {fuel : Nat} {input : CycleInput} {exit : Exit} {ex ex' : Executor W}
    (h : Executor.cycle prog fuel input ex = .ok (exit, ex')) :
    Alone prog ⟨ex.beginCycle, .draining input ex.eventDriver.pollLimit, waking⟩ ⟨ex', .idle, waking⟩ := by
  rcases Executor.cycle_ok prog h with ⟨stopped, nodes⟩ | ⟨-, mid, swept, nodes, sweeps, spawns⟩
  · rcases Executor.runNodes_ok prog nodes with ⟨-, polls⟩ | ⟨now, polled, polls, loop⟩
    · exact poll_alone prog polls
    · rcases loop_alone prog loop with ⟨no, -⟩ | ⟨-, rest⟩
      · exact absurd no stopped
      · exact (poll_alone prog polls).trans rest
  · rcases Executor.runNodes_ok prog nodes with ⟨no, -⟩ | ⟨now, polled, polls, loop⟩
    · cases no
    · rcases loop_alone prog loop with ⟨-, rest⟩ | ⟨no, -⟩
      · exact (poll_alone prog polls).trans
          (rest.trans ((sweep_alone prog sweeps).trans (spawns_alone prog spawns)))
      · cases no

/-- Every state that the executor reaches by itself is one of the machine's. -/
theorem Reachable.of_executor {allowed : Exit → Prop} {ex : Executor W}
    (reached : Executor.Reachable allowed ex) :
    Reachable (fun _ _ => True) ⟨ex, .idle, 0⟩ := by
  obtain ⟨cfg, mode, world, run⟩ := reached
  refine ⟨cfg, mode, world, ?_⟩
  induction run with
  | refl => exact .refl
  | tail _ last ih =>
    apply ih.trans
    cases last with
    | op prog op applied =>
      refine .single ⟨.op prog op, trivial, ?_⟩
      simp only [step, applied]
      rfl
    | cycle prog fuel input exit _ returned =>
      refine .head ⟨.cycle input, trivial, rfl⟩ ?_
      exact ReflTransGen.mono (fun _ _ moved => ⟨.next prog, trivial, moved⟩) _ _ (cycle_alone prog returned)

/-! ## The executor's steps -/

/-- The scheduler is well formed, and at rest in the sweep loop. -/
structure Orderly (m : Machine W) : Prop where
  wf : m.ex.scheduler.WF
  rests : m.phase = .sweeping → m.ex.scheduler.AtRest

variable {prog} {m m' : Machine W}

theorem takeNotification_path {input : CycleInput} {left : Nat}
    (h : m.takeNotification input left = some m') :
    m'.phase ≠ .sweeping ∧ Executor.Path m.ex m'.ex := by
  unfold takeNotification at h
  split at h
  · cases h
    exact ⟨(fun no => by cases no), .refl⟩
  · rename_i r queue popped
    obtain ⟨ex, fired, rfl⟩ := Option.map_eq_some_iff.mp h
    have one : Executor.drainNotifications 1 m.ex = .ok ex := by
      rw [Executor.drainNotifications, popped]
      simp only [toOption_eq_some.mp fired]
      rfl
    exact ⟨(fun no => by cases no), Executor.drainNotifications_path one⟩

/-- Each step of the executor is a run of its small steps. -/
theorem next_path (h : m.next prog = some m') (orderly : m.Orderly) :
    m'.Orderly ∧ Executor.Path m.ex m'.ex := by
  have elsewhere : m'.phase ≠ .sweeping → Executor.Path m.ex m'.ex → m'.Orderly ∧ Executor.Path m.ex m'.ex :=
    fun other path => ⟨⟨Executor.Path.schedulerWF path orderly.wf, fun here => absurd here other⟩, path⟩
  unfold next at h
  split at h
  · cases h
  · cases h
    exact elsewhere (fun no => by cases no) .refl
  · obtain ⟨other, path⟩ := takeNotification_path h
    exact elsewhere other path
  · obtain ⟨ex, polled, rfl⟩ := Option.map_eq_some_iff.mp h
    obtain ⟨mid, yields, timers⟩ := Steps.bind_ok (toOption_eq_some.mp polled)
    exact elsewhere (fun no => by cases no)
      ((Executor.drainYields_path rfl yields).trans (Executor.pollTimers_path timers))
  · obtain ⟨⟨t, ex⟩, asked, same⟩ := Option.map_eq_some_iff.mp h
    have path := Executor.askIo_path (toOption_eq_some.mp asked)
    cases t with
    | none => cases same; exact elsewhere (fun no => by cases no) path
    | some now => cases same; exact elsewhere (fun no => by cases no) path
  · rename_i now here
    obtain ⟨turn, turned, same⟩ := Option.map_eq_some_iff.mp h
    replace turned := toOption_eq_some.mp turned
    cases turn with
    | finished ex =>
      cases same
      obtain ⟨s, popped, rfl⟩ := Executor.nodeStep_finished prog turned
      have path := Executor.nodeStep_path (.inl turned)
      exact ⟨⟨Executor.Path.schedulerWF path orderly.wf, fun _ => (Scheduler.pop_none orderly.wf popped).1⟩,
        path⟩
    | terminated ex =>
      cases same
      exact elsewhere (fun no => by cases no) (Executor.nodeStep_path (.inr (.inl turned)))
    | again ex =>
      cases same
      refine elsewhere (fun no => ?_) (Executor.nodeStep_path (.inr (.inr turned)))
      rw [show m.phase = .running now from here] at no
      cases no
  · rename_i here
    have rests := orderly.rests here
    split at h
    · cases h
      exact elsewhere (fun no => by cases no) .refl
    · rename_i r rest front
      cases h
      obtain ⟨path, same⟩ := Executor.removeNode_path prog front rests
      exact ⟨⟨Executor.Path.schedulerWF path orderly.wf, fun _ => by rw [same]; exact rests⟩, path⟩
  · cases h
    exact elsewhere (fun no => by cases no) .refl
  · rename_i ticket rest here
    obtain ⟨ex, spawned, rfl⟩ := Option.map_eq_some_iff.mp h
    have first : Executor.Path m.ex { m.ex with deferredSpawns := rest } :=
      .single (.code (.spawns rest m.ex.tickets))
    exact elsewhere (fun no => by cases no)
      (first.trans (Executor.runSpawn_path prog (toOption_eq_some.mp spawned)))

theorem step_path {move : Move W} (h : m.step move = some m') (orderly : m.Orderly) :
    m'.Orderly ∧ Executor.Path m.ex m'.ex := by
  have handles : ∀ {ex : Executor W}, Executor.HandleRun m.ex ex → ∀ waking,
      Orderly ⟨ex, m.phase, waking⟩ ∧ Executor.Path m.ex ex := by
    intro ex run waking
    have same := Executor.scheduler_of_handleRun run
    exact ⟨⟨by rw [same]; exact orderly.wf, fun here => by rw [same]; exact orderly.rests here⟩,
      Executor.CodeRun.path run.code⟩
  cases move with
  | push t => cases h; exact handles (Executor.pushNotification_run m.ex t) _
  | wake =>
    simp only [step] at h
    split at h
    · cases h
      exact handles (.single .wake) _
    · cases h
  | op prog op =>
    simp only [step] at h
    split at h
    · rename_i here
      obtain ⟨ex, applied, rfl⟩ := Option.map_eq_some_iff.mp h
      have path := Executor.execOp_path prog (toOption_eq_some.mp applied)
      exact ⟨⟨Executor.Path.schedulerWF path orderly.wf, fun no => by rw [here] at no; cases no⟩, path⟩
    · cases h
  | cycle input =>
    simp only [step] at h
    split at h
    · cases h
      exact ⟨⟨orderly.wf, fun no => by cases no⟩, .single .begin⟩
    · cases h
  | next prog => exact next_path h orderly

theorem Reachable.orderly {allowed : Machine W → Move W → Prop} (reached : Reachable allowed m) :
    m.Orderly := by
  obtain ⟨cfg, mode, world, run⟩ := reached
  refine Steps.run_inv (p := Orderly) (fun _ _ ⟨_, _, moved⟩ orderly => (step_path moved orderly).1) run ?_
  exact ⟨Scheduler.new_wf, fun no => by cases no⟩

/-- The executor of every interleaving goes through its own small steps. -/
theorem Reachable.path {allowed : Machine W → Move W → Prop} (reached : Reachable allowed m) :
    ∃ cfg mode world, Executor.Path (.withConfig cfg mode world) m.ex := by
  obtain ⟨cfg, mode, world, run⟩ := reached
  refine ⟨cfg, mode, world, ?_⟩
  induction run with
  | refl => exact .refl
  | tail run last ih =>
    obtain ⟨move, -, moved⟩ := last
    exact ih.trans (step_path moved (Reachable.orderly ⟨cfg, mode, world, run⟩)).2

end Machine
end Wavelet
