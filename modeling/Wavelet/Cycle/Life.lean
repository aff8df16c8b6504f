import Wavelet.Cycle.Order

/-!
# Lives

An executor is idle between two cycles, and while it builds the deferred subgraphs of one. A
life leads from one idle state to another: through operations, of the program or of a
deferred subgraph, and through passes, which are cycles up to the end of their sweep. Where
the life admits it, a cycle may also be stopped: a node terminates it or its poll fails, and
what it has queued stays queued. The history of a life are the states in which its cycles
ended their node loops, oldest first.
-/

namespace Wavelet

variable {W : Type}

/-- What the programs, the operations and the cycles of a life keep to, and what its cycles
return. -/
structure Manners (W : Type) where
  legal : Program W → Prop
  polite : ExecOp W → Prop
  fine : Program W → CycleInput → Executor W → Executor W → Prop
  exits : Exit → Prop := (· = .running)

/-- No cycle of such a life is stopped. -/
def Manners.Running (manners : Manners W) : Prop := ∀ exit, manners.exits exit → exit = .running

namespace Executor

open Relation

/-- A cycle that goes on to its deferred subgraphs: the end of its node loop and of its
sweep. -/
structure Pass (prog : Program W) (fuel : Nat) (input : CycleInput) (ex last swept : Executor W) : Prop where
  nodes : runNodes prog fuel input ex = .ok (.running, last)
  sweeps : sweepLoop prog fuel last = .ok swept

inductive Life (manners : Manners W) (start : Executor W → Prop) : List (Executor W) → Executor W → Prop
  | start {ex} : start ex → Life manners start [] ex
  | op (prog op) {history ex ex'} : Life manners start history ex → manners.legal prog → manners.polite op →
      ex.execOp prog op = .ok ex' → Life manners start history ex'
  | opens (tickets) {history ex} : Life manners start history ex →
      Life manners start history { ex with deferredSpawns := tickets }
  | closes (prog ticket) {history ex} : Life manners start history ex → manners.legal prog →
      Life manners start history (ex.dropOwner prog (.spawn ticket))
  | pass (prog fuel input) {history ex last swept} : Life manners start history ex → manners.legal prog →
      Pass prog fuel input ex last swept → manners.fine prog input ex last →
      Life manners start (history ++ [last]) swept
  | stopped (prog fuel input exit) {history ex ex'} : Life manners start history ex →
      manners.legal prog → manners.exits exit →
      exit ≠ .running → runNodes prog fuel input ex = .ok (exit, ex') → manners.fine prog input ex ex' →
      Life manners start (history ++ [ex']) ex'

/-- The executor has come here from its start, with cycles that returned as given. -/
def From (exits : Exit → Prop) (ex : Executor W) : Prop :=
  ∃ history, Life ⟨fun _ => True, fun _ => True, fun _ _ _ _ => True, exits⟩
    (fun ex => ∃ cfg mode world, ex = withConfig cfg mode world) history ex

/-- A state of the executor between two cycles or deferred subgraphs, whatever its cycles
have returned. -/
def Lived (ex : Executor W) : Prop := ex.From fun _ => True

/-- Such a state when every cycle has returned `Running`. -/
def Idle (ex : Executor W) : Prop := ex.From (· = .running)

variable {manners : Manners W} {start : Executor W → Prop} {history : List (Executor W)} {prog : Program W}

/-! ## Whole cycles -/

theorem Life.ops {ops : List (ExecOp W)} {ex ex' : Executor W} (life : Life manners start history ex)
    (legal : manners.legal prog) (polite : ∀ op ∈ ops, manners.polite op)
    (h : ex.execOps prog ops = .ok ex') :
    Life manners start history ex' :=
  Steps.foldlM_inv (p := Life manners start history)
    (fun _ op _ member applied life => life.op prog op legal (polite op member) applied) h life

theorem Life.runSpawns {tickets : List Nat} {ex ex' : Executor W} (life : Life manners start history ex)
    (legal : manners.legal prog) (polite : ∀ ex ticket, ∀ op ∈ prog.spawnFn ex ticket, manners.polite op)
    (h : Executor.runSpawns prog tickets ex = .ok ex') : Life manners start history ex' := by
  induction tickets generalizing ex with
  | nil => cases h; exact life
  | cons ticket rest ih =>
    obtain ⟨mid, spawned, later⟩ := Steps.bind_ok h
    obtain ⟨built, ops, rfl⟩ := Steps.map_ok spawned
    exact ih (((life.opens rest).ops legal (polite _ _) ops).closes prog ticket legal) later

/-- A life goes on with a cycle and its deferred subgraphs. -/
theorem Life.cycle {fuel : Nat} {input : CycleInput} {exit : Exit} {ex ex' : Executor W}
    (life : Life manners start history ex) (legal : manners.legal prog)
    (polite : ∀ ex ticket, ∀ op ∈ prog.spawnFn ex ticket, manners.polite op) (admits : manners.exits exit)
    (fine : ∀ last, runNodes prog fuel input ex = .ok (exit, last) → manners.fine prog input ex last)
    (h : Executor.cycle prog fuel input ex = .ok (exit, ex')) :
    ∃ last, runNodes prog fuel input ex = .ok (exit, last) ∧ Life manners start (history ++ [last]) ex' := by
  rcases cycle_ok prog h with ⟨no, nodes⟩ | ⟨rfl, last, swept, nodes, sweeps, spawns⟩
  · exact ⟨ex', nodes, life.stopped prog fuel input exit legal admits no nodes (fine ex' nodes)⟩
  · exact ⟨last, nodes,
      (life.pass prog fuel input legal ⟨nodes, sweeps⟩ (fine last nodes)).runSpawns legal polite spawns⟩

/-- Between two cycles the executor has come from its start. -/
theorem Reachable.from {exits : Exit → Prop} {ex : Executor W} (reached : Reachable exits ex) :
    ex.From exits := by
  obtain ⟨cfg, mode, world, run⟩ := reached
  induction run with
  | refl => exact ⟨[], .start ⟨cfg, mode, world, rfl⟩⟩
  | tail _ step ih =>
    obtain ⟨history, life⟩ := ih
    cases step with
    | op prog op applied => exact ⟨_, life.op prog op trivial trivial applied⟩
    | cycle prog fuel input exit fine returned =>
      obtain ⟨last, -, life⟩ := life.cycle trivial (fun _ _ _ _ => trivial) fine (fun _ _ => trivial) returned
      exact ⟨_, life⟩

theorem Reachable.idle {ex : Executor W} (reached : Reachable (· = .running) ex) : ex.Idle := reached.from

/-- A life goes on from where its start has come to. -/
theorem Life.from {exits : Exit → Prop} {ex : Executor W} (life : Life manners start history ex)
    (admits : ∀ exit, manners.exits exit → exits exit) (begins : ∀ ex, start ex → ex.From exits) :
    ex.From exits := by
  induction life with
  | start here => exact begins _ here
  | op prog op _ _ _ applied ih =>
    obtain ⟨history, life⟩ := ih
    exact ⟨_, life.op prog op trivial trivial applied⟩
  | opens tickets _ ih =>
    obtain ⟨history, life⟩ := ih
    exact ⟨_, life.opens tickets⟩
  | closes prog ticket _ _ ih =>
    obtain ⟨history, life⟩ := ih
    exact ⟨_, life.closes prog ticket trivial⟩
  | pass prog fuel input _ _ pass _ ih =>
    obtain ⟨history, life⟩ := ih
    exact ⟨_, life.pass prog fuel input trivial pass trivial⟩
  | stopped prog fuel input exit _ _ returned no nodes _ ih =>
    obtain ⟨history, life⟩ := ih
    exact ⟨_, life.stopped prog fuel input exit trivial (admits exit returned) no nodes trivial⟩

theorem Life.lived {ex : Executor W} (life : Life manners start history ex)
    (begins : ∀ ex, start ex → ex.Lived) : ex.Lived :=
  life.from (fun _ _ => trivial) begins

/-- A life that starts idle stays so while no cycle is stopped. -/
theorem Life.idle {ex : Executor W} (life : Life manners start history ex) (running : manners.Running)
    (begins : ∀ ex, start ex → ex.Idle) : ex.Idle :=
  life.from running begins

namespace From

variable {exits : Exit → Prop} {ex ex' : Executor W}

theorem lived (here : ex.From exits) : ex.Lived := by
  obtain ⟨history, life⟩ := here
  exact life.lived fun _ here => ⟨[], .start here⟩

theorem op {op : ExecOp W} (here : ex.From exits) (h : ex.execOp prog op = .ok ex') : ex'.From exits := by
  obtain ⟨history, life⟩ := here
  exact ⟨_, life.op prog op trivial trivial h⟩

theorem ops {ops : List (ExecOp W)} (here : ex.From exits) (h : ex.execOps prog ops = .ok ex') :
    ex'.From exits := by
  obtain ⟨history, life⟩ := here
  exact ⟨_, life.ops trivial (fun _ _ => trivial) h⟩

theorem opens (here : ex.From exits) (tickets : List Nat) :
    ({ ex with deferredSpawns := tickets } : Executor W).From exits := by
  obtain ⟨history, life⟩ := here
  exact ⟨_, life.opens tickets⟩

theorem closes (here : ex.From exits) (prog : Program W) (ticket : Nat) :
    (ex.dropOwner prog (.spawn ticket)).From exits := by
  obtain ⟨history, life⟩ := here
  exact ⟨_, life.closes prog ticket trivial⟩

theorem pass {fuel : Nat} {input : CycleInput} {last swept : Executor W} (here : ex.From exits)
    (pass : Pass prog fuel input ex last swept) : swept.From exits := by
  obtain ⟨history, life⟩ := here
  exact ⟨_, life.pass prog fuel input trivial pass trivial⟩

end From

theorem Lived.stopped {fuel : Nat} {input : CycleInput} {exit : Exit} {ex ex' : Executor W}
    (lived : ex.Lived) (no : exit ≠ .running) (h : runNodes prog fuel input ex = .ok (exit, ex')) :
    ex'.Lived := by
  obtain ⟨history, life⟩ := lived
  exact ⟨_, life.stopped prog fuel input exit trivial trivial no h trivial⟩

/-! ## What holds of an idle executor -/

theorem Pass.path {fuel : Nat} {input : CycleInput} {ex last swept : Executor W}
    (pass : Pass prog fuel input ex last swept) (wf : ex.scheduler.WF) : Path ex last ∧ Path last swept :=
  ⟨runNodes_path prog pass.nodes, (sweepLoop_path prog (runNodes_atRest prog wf pass.nodes) pass.sweeps).1⟩

theorem Pass.atRest {fuel : Nat} {input : CycleInput} {ex last swept : Executor W}
    (pass : Pass prog fuel input ex last swept) (wf : ex.scheduler.WF) : swept.scheduler.AtRest := by
  have rests := runNodes_atRest prog wf pass.nodes
  rw [(sweepLoop_path prog rests pass.sweeps).2.1]
  exact rests

theorem Idle.atRest {ex : Executor W} (idle : ex.Idle) : ex.scheduler.AtRest := by
  obtain ⟨history, life⟩ := idle
  induction life with
  | start here =>
    obtain ⟨cfg, mode, world, rfl⟩ := here
    exact ⟨rfl, rfl, fun _ => rfl⟩
  | op prog op _ _ _ applied ih => exact execOp_atRest applied ih
  | opens tickets _ ih => exact ih
  | closes prog ticket _ _ ih =>
    rw [scheduler_of_handleRun (dropOwner_run prog ..)]
    exact ih
  | pass prog fuel input _ _ pass _ ih => exact pass.atRest ih.wf
  | stopped prog fuel input exit _ _ running no _ _ _ => exact absurd running no

/-- A life is a run of small steps. -/
theorem Life.path {ex : Executor W} (life : Life manners start history ex)
    (begins : ∀ ex, start ex → ex.scheduler.WF) :
    ∃ first, start first ∧ Path first ex := by
  induction life with
  | start here => exact ⟨_, here, .refl⟩
  | op prog op _ _ _ applied ih =>
    obtain ⟨first, here, path⟩ := ih
    exact ⟨first, here, path.trans (execOp_path prog applied)⟩
  | @opens tickets _ ex _ ih =>
    obtain ⟨first, here, path⟩ := ih
    exact ⟨first, here, path.tail (.code (.spawns tickets ex.tickets))⟩
  | closes prog ticket _ _ ih =>
    obtain ⟨first, here, path⟩ := ih
    exact ⟨first, here, path.trans (CodeRun.path (dropOwner_run prog ..).code)⟩
  | pass prog fuel input life _ pass _ ih =>
    obtain ⟨first, here, path⟩ := ih
    obtain ⟨one, two⟩ := pass.path (path.schedulerWF (begins first here))
    exact ⟨first, here, path.trans (one.trans two)⟩
  | stopped prog fuel input exit _ _ _ _ nodes _ ih =>
    obtain ⟨first, here, path⟩ := ih
    exact ⟨first, here, path.trans (runNodes_path prog nodes)⟩

/-! ## What holds between two cycles -/

namespace From

variable {exits : Exit → Prop} {ex : Executor W}

theorem path (here : ex.From exits) : ∃ cfg mode world, Path (withConfig cfg mode world) ex := by
  obtain ⟨history, life⟩ := here
  obtain ⟨first, ⟨cfg, mode, world, rfl⟩, path⟩ := life.path fun ex here => by
    obtain ⟨cfg, mode, world, rfl⟩ := here
    exact Scheduler.AtRest.wf ⟨rfl, rfl, fun _ => rfl⟩
  exact ⟨cfg, mode, world, path⟩

theorem wf (here : ex.From exits) : ex.scheduler.WF := by
  obtain ⟨cfg, mode, world, path⟩ := here.path
  exact path.schedulerWF (Scheduler.AtRest.wf ⟨rfl, rfl, fun _ => rfl⟩)

theorem inPlace (here : ex.From exits) : ex.InPlace := by
  obtain ⟨cfg, mode, world, path⟩ := here.path
  exact path.inPlace fun _ _ _ there => by cases there

theorem linked (here : ex.From exits) : ex.graph.Linked := by
  obtain ⟨cfg, mode, world, path⟩ := here.path
  exact path.linked fun _ member => by cases member

theorem stamped (here : ex.From exits) (few : ex.cycles < 2 ^ 64) : ex.Stamped := by
  obtain ⟨cfg, mode, world, path⟩ := here.path
  exact path.stamped few ⟨rfl, fun _ _ there => by cases there⟩

/-- What is queued is queued at its depth. -/
theorem queued (here : ex.From exits) (manuals : ex.All Event.ManualPresent) : ex.Queued := by
  obtain ⟨cfg, mode, world, path⟩ := here.path
  refine path.queued manuals (Scheduler.AtRest.wf ⟨rfl, rfl, fun _ => rfl⟩)
    (fun _ _ _ there => by cases there) fun d i member => ?_
  rw [Scheduler.AtRest.drained ⟨rfl, rfl, fun _ => rfl⟩ d] at member
  cases member

end From

/-! ## Idle cycles -/

/-- The executor at another time. -/
def atEpoch (ex : Executor W) (epoch : Nat) (trace : List Event) : Executor W :=
  { ex with epoch := epoch, runs := [], trace := trace }

/-- What a cycle that does nothing keeps, `n` of them keep. -/
theorem atEpoch_waits {p : Executor W → Prop} {ex : Executor W} {trace : List Event} {epoch : Nat}
    (quiet : ∀ epoch trace, p (ex.atEpoch epoch trace) →
      p (ex.atEpoch ((epoch + 1) % 2 ^ 64) (.began :: trace))) (start : p (ex.atEpoch epoch trace))
    (bound : epoch < 2 ^ 64) (n : Nat) :
    ∃ trace', p (ex.atEpoch ((epoch + n) % 2 ^ 64) trace') ∧ ∀ event ∈ trace', event = .began ∨
      event ∈ trace := by
  induction n with
  | zero =>
    refine ⟨trace, ?_, fun event member => .inr member⟩
    rwa [Nat.add_zero, Nat.mod_eq_of_lt bound]
  | succ n ih =>
    obtain ⟨trace', waits, events⟩ := ih
    have next := quiet _ _ waits
    rw [Nat.mod_add_mod, Nat.add_assoc] at next
    refine ⟨_, next, fun event member => ?_⟩
    rcases List.mem_cons.mp member with rfl | old
    · exact .inl rfl
    · exact events event old

/-- If a cycle does nothing, neither do `n` of them. -/
theorem Life.waits {ex : Executor W} {trace : List Event} {epoch : Nat}
    (life : Life manners start history (ex.atEpoch epoch trace)) (bound : epoch < 2 ^ 64) (prog)
    (fuel : Nat) (input : CycleInput) (legal : manners.legal prog)
    (quiet : ∀ epoch trace, Pass prog fuel input (ex.atEpoch epoch trace)
      (ex.atEpoch ((epoch + 1) % 2 ^ 64) (.began :: trace))
      (ex.atEpoch ((epoch + 1) % 2 ^ 64) (.began :: trace)))
    (fine : ∀ epoch trace, manners.fine prog input (ex.atEpoch epoch trace)
      (ex.atEpoch ((epoch + 1) % 2 ^ 64) (.began :: trace))) (n : Nat) :
    ∃ history' trace', Life manners start (history ++ history') (ex.atEpoch ((epoch + n) % 2 ^ 64) trace') ∧
      (∀ last ∈ history', last.runs = []) ∧ ∀ event ∈ trace', event = .began ∨ event ∈ trace := by
  let p := fun ex => ∃ history', Life manners start (history ++ history') ex ∧
    ∀ last ∈ history', last.runs = []
  have once : ∀ epoch trace, p (ex.atEpoch epoch trace) →
      p (ex.atEpoch ((epoch + 1) % 2 ^ 64) (.began :: trace)) := by
    rintro epoch trace ⟨history', life, idle⟩
    have pass := life.pass prog fuel input legal (quiet epoch trace) (fine epoch trace)
    rw [List.append_assoc] at pass
    refine ⟨_, pass, fun last member => ?_⟩
    rcases List.mem_append.mp member with old | new
    · exact idle last old
    · rw [List.mem_singleton.mp new]
      rfl
  have begins : p (ex.atEpoch epoch trace) := ⟨[], by rwa [List.append_nil], fun _ none => by cases none⟩
  obtain ⟨trace', ⟨history', life, idle⟩, events⟩ := atEpoch_waits once begins bound n
  exact ⟨history', trace', life, idle, events⟩

end Executor
end Wavelet
