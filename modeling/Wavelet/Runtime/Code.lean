import Mathlib.Data.Finset.Card
import Wavelet.Lib.Steps
import Wavelet.Runtime.Cycle

/-!
# Steps of program code

Whatever a cycle function, a destructor or a deferred subgraph does to the executor, short
of building a node, is a run of the small steps of `Code`. `Frame` is what such a run
leaves alone: the graph, the epoch, the runs made so far and the place of every node. No
step gives a node without handles a new one, which bounds how deep drops nest.
-/

namespace Wavelet
namespace Executor

open Relation

variable {W : Type}

/-- A small step of code that has handles, collectors and notifiers only. -/
inductive HandleStep : Executor W → Executor W → Prop
  | update (f : W → W) {ex} : HandleStep ex { ex with world := f ex.world }
  | clone (o k) {ex} : ex.Alive k → HandleStep ex (ex.addHandle o k)
  | release (o k) {ex} : (o, k) ∈ ex.handles → (ex.release o k).Alive k → HandleStep ex (ex.release o k)
  | expire (o k) {ex} : (o, k) ∈ ex.handles → ¬ (ex.release o k).Alive k →
      HandleStep ex ((ex.release o k).expire k)
  | request (t) {ex} : HandleStep ex (ex.markForSweep .requested (ex.ref t))
  | register (t) (driver : EventDriver) {ex} : (∀ r ∈ driver.refs, r = ex.ref t ∨ r ∈ ex.eventDriver.refs) →
      ex.eventDriver.notifications.items <+: driver.notifications.items →
      HandleStep ex (ex.register (ex.ref t) driver)
  | noted (r) (kept) {ex} : (kept = true → ex.keyAt r.index = none ∨ r.index ∈ ex.notices) →
      HandleStep ex (ex.noted r kept)
  | wake {ex} : HandleStep ex ex.wake

/-- A small step of program code. -/
inductive Code : Executor W → Executor W → Prop
  | handle {ex ex'} : HandleStep ex ex' → Code ex ex'
  | forget (driver : EventDriver) {ex} : (∀ r ∈ driver.refs, r ∈ ex.eventDriver.refs) →
      driver.notifications = ex.eventDriver.notifications → Code ex { ex with eventDriver := driver }
  | refused (k) {ex} : ex.Alive k → Code ex (ex.log (.manual k (decide (ex.Present k))))
  | manual (k s) {ex} : ex.Alive k → ex.scheduler.schedule (ex.inner k).index (ex.inner k).depth = .ok s →
      Code ex { ex.log (.manual k (decide (ex.Present k))) with scheduler := s }
  | spawns (ts n) {ex} : Code ex { ex with deferredSpawns := ts, tickets := n }
  | mutate (k epoch) {ex} : Code ex (ex.setMutEpoch k epoch)

abbrev HandleRun : Executor W → Executor W → Prop := ReflTransGen HandleStep

abbrev CodeRun : Executor W → Executor W → Prop := ReflTransGen Code

theorem HandleRun.code {ex ex' : Executor W} (run : HandleRun ex ex') : CodeRun ex ex' :=
  ReflTransGen.mono (fun _ _ => Code.handle) _ _ run

/-! ## Handles -/

variable (prog : Program W)

theorem cloneHandle_run (ex : Executor W) (o : Owner) (k : Key) : HandleRun ex (ex.cloneHandle o k) := by
  unfold cloneHandle
  split
  · rename_i allowed
    exact .single (.clone o k allowed.1)
  · exact .refl

theorem refs_push {d : EventDriver} {r : Ref} {q : BoundedQueue Ref}
    (pushed : d.notifications.push r = some q) (s : Ref)
    (h : s ∈ EventDriver.refs { d with notifications := q }) : s = r ∨ s ∈ d.refs := by
  rw [EventDriver.mem_refs_iff] at h
  simp only [(BoundedQueue.push_eq_some_iff.mp pushed).2.1, List.mem_append, List.mem_singleton] at h
  rw [EventDriver.mem_refs_iff]
  rcases h with yields | (notes | rfl) | timers | ios
  · exact .inr (.inl yields)
  · exact .inr (.inr (.inl notes))
  · exact .inl rfl
  · exact .inr (.inr (.inr (.inl timers)))
  · exact .inr (.inr (.inr (.inr ios)))

theorem pushNotification_run (ex : Executor W) (t : Target) : HandleRun ex (ex.pushNotification t) := by
  unfold pushNotification
  dsimp only
  split
  · rename_i queue pushed
    obtain ⟨-, items, -⟩ := BoundedQueue.push_eq_some_iff.mp pushed
    have grown : ex.eventDriver.notifications.items <+: queue.items := items ▸ List.prefix_append ..
    refine .tail (.single (.register t _ (refs_push pushed) grown)) (.noted _ _ fun _ => .inr ?_)
    show (ex.ref t).index ∈ queue.items.map (·.index)
    rw [items]
    exact List.mem_map_of_mem (List.mem_append_right _ List.mem_cons_self)
  · rename_i full
    refine .single (.noted _ _ fun kept => ?_)
    rcases of_decide_eq_true kept with vacant | room | queued
    · exact .inl vacant
    · exact absurd (BoundedQueue.push_eq_none_iff.mp full) room
    · exact .inr queued

theorem notify_run (ex : Executor W) (t : Target) : HandleRun ex (ex.notify t) :=
  (pushNotification_run ex t).tail .wake

theorem applyHandleOp_run {dropHandle : Executor W → Owner → Key → Executor W}
    (dropped : ∀ ex o k, HandleRun ex (dropHandle ex o k)) (ex : Executor W) (op : HandleOp W) :
    HandleRun ex (applyHandleOp dropHandle ex op) := by
  cases op with
  | update f => exact .single (.update f)
  | clone k o => exact cloneHandle_run ex o k
  | drop k o => cases o <;> first | exact .refl | exact dropped ex _ k
  | markForSweep t => exact .single (.request t)
  | notify t => exact notify_run ex t

theorem dropHandleWith_run (depth : Nat) (ex : Executor W) (o : Owner) (k : Key) :
    HandleRun ex (dropHandleWith prog depth ex o k) := by
  induction depth generalizing ex o k with
  | zero => exact .refl
  | succ depth ih =>
    rw [dropHandleWith]
    split
    · rename_i held
      simp only
      split
      · rename_i left
        exact .single (.release o k held left)
      · rename_i last
        have destructor := Steps.foldl_steps (l := prog.onDrop ((ex.release o k).expire k) k)
          (fun s op _ => applyHandleOp_run ih s op) ((ex.release o k).expire k)
        exact .trans (.single (.expire o k held last)) (destructor.trans
          (Steps.foldl_steps (fun s j _ => ih s (.inner k) j) _))
    · exact .refl

theorem dropHandle_run (ex : Executor W) (o : Owner) (k : Key) : HandleRun ex (ex.dropHandle prog o k) :=
  dropHandleWith_run prog _ ex o k

theorem handleOp_run (ex : Executor W) (op : HandleOp W) : HandleRun ex (ex.handleOp prog op) :=
  applyHandleOp_run (dropHandle_run prog) ex op

theorem dropOwner_run (ex : Executor W) (o : Owner) : HandleRun ex (ex.dropOwner prog o) :=
  Steps.foldl_steps (fun s k _ => dropHandle_run prog s o k) ex

/-! ## Registrations -/

theorem driverOp_run {ex ex' : Executor W} {op : DriverOp} (h : ex.driverOp op = some ex') :
    CodeRun ex ex' := by
  cases op with
  | yieldNow t =>
    cases h
    refine .single (.handle (.register t _ (fun r member => ?_) (List.prefix_refl _)))
    simp only [EventDriver.mem_refs_iff, List.mem_append, List.mem_singleton] at member ⊢
    rcases member with (yields | rfl) | rest
    · exact .inr (.inl yields)
    · exact .inl rfl
    · exact .inr (.inr rest)
  | registerTimer t when =>
    obtain ⟨timer, configured, rfl⟩ := Option.map_eq_some_iff.mp h
    refine .single (.handle (.register t _ (fun r member => ?_) (List.prefix_refl _)))
    simp only [EventDriver.mem_refs_iff, EventDriver.timerRefs, EventDriver.ioRefs, configured,
      Option.map_some, Option.getD_some, TimerDriver.refs, TimerDriver.registerTimer, List.mem_map] at member ⊢
    rcases member with yields | notes | ⟨entry, inside, rfl⟩ | ios
    · exact .inr (.inl yields)
    · exact .inr (.inr (.inl notes))
    · rcases OrderedMap.mem_of_mem_insert inside with rfl | old
      · exact .inl rfl
      · exact .inr (.inr (.inr (.inl ⟨entry, old, rfl⟩)))
    · exact .inr (.inr (.inr (.inr ios)))
  | deregisterTimer source =>
    obtain ⟨timer, configured, rfl⟩ := Option.map_eq_some_iff.mp h
    refine .single (.forget _ (fun r member => ?_) rfl)
    simp only [EventDriver.mem_refs_iff, EventDriver.timerRefs, EventDriver.ioRefs, configured,
      Option.map_some, Option.getD_some, TimerDriver.refs, TimerDriver.deregisterTimer, List.mem_map] at member ⊢
    rcases member with yields | notes | ⟨entry, inside, rfl⟩ | ios
    · exact .inl yields
    · exact .inr (.inl notes)
    · exact .inr (.inr (.inl ⟨entry, OrderedMap.mem_of_mem_erase inside, rfl⟩))
    · exact .inr (.inr (.inr ios))
  | registerIo t token =>
    obtain ⟨io, configured, rfl⟩ := Option.map_eq_some_iff.mp h
    split
    · refine .single (.handle (.register t _ (fun r member => ?_) (List.prefix_refl _)))
      simp only [EventDriver.mem_refs_iff, EventDriver.timerRefs, EventDriver.ioRefs, configured,
        Option.map_some,
        Option.getD_some, IoDriver.refs, List.map_cons, List.mem_cons] at member ⊢
      rcases member with yields | notes | timers | rfl | ios
      · exact .inr (.inl yields)
      · exact .inr (.inr (.inl notes))
      · exact .inr (.inr (.inr (.inl timers)))
      · exact .inl rfl
      · exact .inr (.inr (.inr (.inr ios)))
    · exact .refl
  | deregisterIo token =>
    obtain ⟨io, configured, rfl⟩ := Option.map_eq_some_iff.mp h
    refine .single (.forget _ (fun r member => ?_) rfl)
    simp only [EventDriver.mem_refs_iff, EventDriver.timerRefs, EventDriver.ioRefs, configured,
      Option.map_some, Option.getD_some, IoDriver.refs, List.mem_map] at member ⊢
    rcases member with yields | notes | timers | ⟨entry, inside, rfl⟩
    · exact .inl yields
    · exact .inr (.inl notes)
    · exact .inr (.inr (.inl timers))
    · exact .inr (.inr (.inr ⟨entry, List.mem_of_mem_filter inside, rfl⟩))

theorem scheduleNode_run {ex ex' : Executor W} {k : Key} (held : ex.Alive k)
    (h : ex.scheduleNode k = some ex') :
    CodeRun ex ex' := by
  simp only [scheduleNode] at h
  split at h
  · rename_i s accepted
    cases h
    exact .single (.manual k s held accepted)
  · cases h
    exact .single (.refused k held)
  · cases h

theorem spawnSubgraph_run (ex : Executor W) (captures : List Key) : CodeRun ex (ex.spawnSubgraph captures) :=
  .trans (.single (.spawns (ex.deferredSpawns ++ [ex.tickets]) (ex.tickets + 1)))
    (Steps.foldl_steps (fun s k _ => (cloneHandle_run s _ k).code) _)

/-! ## A whole cycle function -/

theorem applyEffect_run {ex ex' : Executor W} {effect : Effect W}
    (h : ex.applyEffect prog effect = some ex') :
    CodeRun ex ex' := by
  cases effect with
  | handle op => cases h; exact (handleOp_run prog ex op).code
  | driver op => exact driverOp_run h
  | scheduleNode k =>
    simp only [applyEffect] at h
    split at h
    · rename_i held
      exact scheduleNode_run held h
    · cases h; exact .refl
  | spawnSubgraph captures => cases h; exact spawnSubgraph_run ex captures

theorem applyEffects_run (ex : Executor W) (effects : List (Effect W)) :
    CodeRun ex (ex.applyEffects prog effects).2 := by
  induction effects generalizing ex with
  | nil => exact .refl
  | cons effect rest ih =>
    rw [applyEffects]
    split
    · rename_i next applied
      exact (applyEffect_run prog applied).trans (ih next)
    · exact .refl

/-- A call that returns has run its effects, to the end if the function returned a control
value. -/
theorem callCycleFn_ok {now : CycleTime} {i : NodeIndex} {fn : CycleFn} {ex ex' : Executor W} {v : Verdict}
    (h : callCycleFn prog now i fn ex = .ok (v, ex')) :
    ∃ answer finished after, prog.cycleFn ex ⟨i, now, ex.epoch⟩ fn.state = answer ∧
      ex.applyEffects prog answer.1 = (finished, after) ∧
      ((∃ control, v = .returned control ∧ finished = true ∧ answer.2 = .ret control ∧
          ex' = if control = .broadcast then after.setMutEpoch fn.state after.epoch else after) ∨
        v = .panicked ∧ ex' = after ∧ (finished = true → answer.2 = .panic)) := by
  unfold callCycleFn at h
  simp only at h
  refine ⟨_, _, _, rfl, rfl, ?_⟩
  split at h
  · rename_i control finished returned
    simp only [Except.ok.injEq, Prod.mk.injEq] at h
    exact .inl ⟨control, h.1.symm, finished, returned, h.2.symm⟩
  · rename_i panics
    split at h
    · cases h
    · simp only [Except.ok.injEq, Prod.mk.injEq] at h
      refine .inr ⟨h.1.symm, h.2.symm, fun finished => ?_⟩
      cases returned : (prog.cycleFn ex ⟨i, now, ex.epoch⟩ fn.state).2 with
      | ret control => exact (panics control finished returned).elim
      | panic => rfl

/-- How a popped node runs: it is poisoned, it owns itself, its closure upgrades its weak
handle, or there is no handle left to upgrade to. -/
theorem graphCycle_cases {now : CycleTime} {i : NodeIndex} {ex ex' : Executor W} {run : Run}
    (h : graphCycle prog now i ex = .ok (run, ex')) :
    ∃ ctx, ex.graph.nodeWeight i = some ctx ∧ run.index = i ∧ run.node = ctx.cycleFn.state ∧
      ((ctx.poisoned = true ∧ run.verdict = .poisoned ∧ ex' = ex) ∨
        (ctx.poisoned = false ∧ ctx.cycleFn.spawned = true ∧
          callCycleFn prog now i ctx.cycleFn ex = .ok (run.verdict, ex')) ∨
        (ctx.poisoned = false ∧ ctx.cycleFn.spawned = false ∧ ex.Alive run.node ∧
          ∃ mid, callCycleFn prog now i ctx.cycleFn (ex.addHandle .running run.node) =
          .ok (run.verdict, mid) ∧
            ex' = mid.dropHandle prog .running run.node) ∨
        (ctx.poisoned = false ∧ ctx.cycleFn.spawned = false ∧ ¬ ex.Alive run.node ∧
        run.verdict = .noHandle ∧ ex' = ex)) := by
  unfold graphCycle at h
  split at h
  · cases h
  · rename_i ctx there
    refine ⟨ctx, there, ?_⟩
    split at h
    · rename_i poisoned
      cases h
      exact ⟨rfl, rfl, .inl ⟨poisoned, rfl, rfl⟩⟩
    · rename_i sound
      have sound : ctx.poisoned = false := by simpa using sound
      obtain ⟨⟨v, mid⟩, called, same⟩ := Steps.map_ok h
      cases same
      refine ⟨rfl, rfl, .inr ?_⟩
      unfold callClosure at called
      split at called
      · rename_i spawned
        exact .inl ⟨sound, spawned, called⟩
      · rename_i built
        have built : ctx.cycleFn.spawned = false := by simpa using built
        split at called
        · rename_i alive
          obtain ⟨⟨v', inner⟩, called', same⟩ := Steps.map_ok called
          cases same
          exact .inr (.inl ⟨sound, built, alive, inner, called', rfl⟩)
        · rename_i dead
          cases called
          exact .inr (.inr ⟨sound, built, dead, rfl, rfl⟩)

theorem callCycleFn_run {now : CycleTime} {i : NodeIndex} {fn : CycleFn} {ex ex' : Executor W} {v : Verdict}
    (h : callCycleFn prog now i fn ex = .ok (v, ex')) : CodeRun ex ex' := by
  obtain ⟨answer, finished, after, -, applied, ends⟩ := callCycleFn_ok prog h
  have effects := applyEffects_run prog ex answer.1
  rw [applied] at effects
  rcases ends with ⟨control, -, -, -, rfl⟩ | ⟨-, rfl, -⟩
  · split
    · exact effects.tail (.mutate ..)
    · exact effects
  · exact effects

theorem graphCycle_run {now : CycleTime} {i : NodeIndex} {ex ex' : Executor W} {run : Run}
    (h : graphCycle prog now i ex = .ok (run, ex')) : CodeRun ex ex' := by
  obtain ⟨ctx, -, -, -, poisoned | spawned | built | dead⟩ := graphCycle_cases prog h
  · obtain ⟨-, -, rfl⟩ := poisoned
    exact .refl
  · exact callCycleFn_run prog spawned.2.2
  · obtain ⟨-, -, alive, mid, called, rfl⟩ := built
    exact .trans (.single (.handle (.clone .running run.node alive)))
      ((callCycleFn_run prog called).trans (dropHandle_run prog ..).code)
  · obtain ⟨-, -, -, -, rfl⟩ := dead
    exact .refl

/-! ## What program code leaves alone -/

structure Frame (ex ex' : Executor W) : Prop where
  graph : ex'.graph = ex.graph
  epoch : ex'.epoch = ex.epoch
  runs : ex'.runs = ex.runs
  nodes : ex'.inners.length = ex.inners.length
  index : ∀ k, (ex'.inner k).index = (ex.inner k).index
  depth : ∀ k, (ex'.inner k).depth = (ex.inner k).depth
  marks : ex.gc <+: ex'.gc

namespace Frame

theorem refl (ex : Executor W) : Frame ex ex :=
  ⟨rfl, rfl, rfl, rfl, fun _ => rfl, fun _ => rfl, List.prefix_refl _⟩

theorem trans {a b c : Executor W} (first : Frame a b) (second : Frame b c) : Frame a c where
  graph := second.graph.trans first.graph
  epoch := second.epoch.trans first.epoch
  runs := second.runs.trans first.runs
  nodes := second.nodes.trans first.nodes
  index k := (second.index k).trans (first.index k)
  depth k := (second.depth k).trans (first.depth k)
  marks := first.marks.trans second.marks

theorem keyAt {ex ex' : Executor W} (frame : Frame ex ex') (i : NodeIndex) : ex'.keyAt i = ex.keyAt i := by
  rw [Executor.keyAt, frame.graph]; rfl

end Frame

theorem inner_setMutEpoch (ex : Executor W) (k j : Key) (epoch : Nat) :
    ((ex.setMutEpoch k epoch).inner j).index = (ex.inner j).index ∧
      ((ex.setMutEpoch k epoch).inner j).depth = (ex.inner j).depth := by
  simp only [inner, setMutEpoch, List.getD_eq_getElem?_getD, List.getElem?_set]
  by_cases same : k = j
  · subst same
    by_cases bound : k < ex.inners.length
    · simp [bound]
    · simp [bound]
  · simp [same]

theorem HandleStep.frame {ex ex' : Executor W} (step : HandleStep ex ex') : Frame ex ex' := by
  cases step with
  | expire o k | request t => exact ⟨rfl, rfl, rfl, rfl, fun _ => rfl, fun _ => rfl, List.prefix_append ..⟩
  | _ => exact ⟨rfl, rfl, rfl, rfl, fun _ => rfl, fun _ => rfl, List.prefix_refl _⟩

theorem Code.frame {ex ex' : Executor W} (step : Code ex ex') : Frame ex ex' := by
  cases step with
  | handle step => exact step.frame
  | mutate k epoch =>
    exact ⟨rfl, rfl, rfl, List.length_set .., fun j => (inner_setMutEpoch ex k j epoch).1,
      fun j => (inner_setMutEpoch ex k j epoch).2, List.prefix_refl _⟩
  | _ => exact ⟨rfl, rfl, rfl, rfl, fun _ => rfl, fun _ => rfl, List.prefix_refl _⟩

/-- Handles alone cannot reach the scheduler. -/
theorem scheduler_of_handleRun {ex ex' : Executor W} (run : HandleRun ex ex') :
    ex'.scheduler = ex.scheduler := by
  induction run with
  | refl => rfl
  | tail _ last ih => rw [← ih]; cases last <;> rfl

theorem frame_of_run {ex ex' : Executor W} (run : CodeRun ex ex') : Frame ex ex' := by
  induction run with
  | refl => exact .refl ex
  | tail _ last ih => exact ih.trans last.frame

/-! ### The shared part of the nodes -/

section Inners

variable {prog}

theorem inners_of_handleRun {ex ex' : Executor W} (run : HandleRun ex ex') : ex'.inners = ex.inners :=
  Steps.run_inv (p := fun s : Executor W => s.inners = ex.inners)
    (fun s s' step same => by rw [← same]; cases step <;> rfl) run rfl

theorem inners_driverOp {ex ex' : Executor W} {op : DriverOp} (h : ex.driverOp op = some ex') :
    ex'.inners = ex.inners := by
  obtain ⟨driver, trace, rfl⟩ := driverOp_ok h
  rfl

theorem inners_applyEffect {ex ex' : Executor W} {effect : Effect W}
    (h : ex.applyEffect prog effect = some ex') :
    ex'.inners = ex.inners := by
  cases effect with
  | handle op => cases h; exact inners_of_handleRun (handleOp_run prog ex op)
  | driver op => exact inners_driverOp h
  | scheduleNode k =>
    simp only [applyEffect, scheduleNode] at h
    split at h
    · split at h
      · cases h; rfl
      · cases h; rfl
      · cases h
    · cases h; rfl
  | spawnSubgraph captures =>
    cases h
    have clones := Steps.foldl_steps (l := captures) (fun s k _ => cloneHandle_run s (.spawn ex.tickets) k)
      { ex with deferredSpawns := ex.deferredSpawns ++ [ex.tickets], tickets := ex.tickets + 1 }
    have same := inners_of_handleRun clones
    exact same

theorem inners_applyEffects {effects : List (Effect W)} {ex : Executor W} :
    (ex.applyEffects prog effects).2.inners = ex.inners := by
  induction effects generalizing ex with
  | nil => rfl
  | cons effect rest ih =>
    rw [applyEffects]
    split
    · rename_i next applied
      rw [ih, inners_applyEffect applied]
    · rfl

theorem inner_of_inners {ex ex' : Executor W} (same : ex'.inners = ex.inners) (k : Key) :
    ex'.inner k = ex.inner k := by
  rw [inner, same]
  rfl

end Inners

/-! ## How deep drops nest -/

/-- The nodes that have a handle left. -/
def lives (ex : Executor W) : Finset Key := (ex.handles.map (·.2)).toFinset

theorem mem_lives {ex : Executor W} {k : Key} : k ∈ ex.lives ↔ ex.Alive k := List.mem_toFinset

/-- Nothing that code does with handles brings a node back to life. -/
theorem HandleStep.lives_subset {ex ex' : Executor W} (step : HandleStep ex ex') : ex'.lives ⊆ ex.lives := by
  intro j alive
  rw [mem_lives] at alive ⊢
  cases step with
  | clone o k there =>
    rcases List.mem_cons.mp alive with rfl | old
    · exact there
    · exact old
  | release o k =>
    obtain ⟨h, member, rfl⟩ := List.mem_map.mp alive
    exact List.mem_map.mpr ⟨h, List.mem_of_mem_erase member, rfl⟩
  | expire o k =>
    obtain ⟨h, member, rfl⟩ := List.mem_map.mp alive
    exact List.mem_map.mpr ⟨h, List.mem_of_mem_erase member, rfl⟩
  | _ => exact alive

theorem alive_of_code {ex ex' : Executor W} (run : CodeRun ex ex') {k : Key} (alive : ex'.Alive k) :
    ex.Alive k := by
  refine Steps.run_inv (p := fun s : Executor W => s.Alive k → ex.Alive k)
    (fun s s' step back alive => ?_) run id alive
  cases step with
  | handle step => exact back (mem_lives.mp (step.lives_subset (mem_lives.mpr alive)))
  | _ => exact back alive

theorem lives_card_le {ex ex' : Executor W} {n : Nat} (run : HandleRun ex ex') (bound : ex.lives.card ≤ n) :
    ex'.lives.card ≤ n :=
  Steps.run_inv (p := fun s : Executor W => s.lives.card ≤ n)
    (fun _ _ step bound => Nat.le_trans (Finset.card_le_card step.lives_subset) bound) run bound

/-- The end of a life lowers the number of lives. -/
theorem lives_expire {ex : Executor W} {o : Owner} {k : Key} (held : (o, k) ∈ ex.handles)
    (last : ¬ (ex.release o k).Alive k) :
    ((ex.release o k).expire k).lives.card < ex.lives.card := by
  refine Finset.card_lt_card ⟨(HandleStep.expire o k held last).lives_subset, fun back => last ?_⟩
  have alive : k ∈ ex.lives := mem_lives.mpr (List.mem_map.mpr ⟨(o, k), held, rfl⟩)
  exact mem_lives.mp (back alive)

theorem applyHandleOp_congr {f g : Executor W → Owner → Key → Executor W} {ex : Executor W}
    (same : ∀ o k, f ex o k = g ex o k) (op : HandleOp W) :
    applyHandleOp f ex op = applyHandleOp g ex op := by
  cases op with
  | drop k o => cases o <;> first | rfl | exact same _ k
  | _ => rfl

/-- A bound that is not below the number of lives is never reached. -/
theorem dropHandleWith_enough {n m : Nat} (deeper : n ≤ m) {ex : Executor W}
    (bound : ex.lives.card ≤ n) (o : Owner) (k : Key) :
    dropHandleWith prog m ex o k = dropHandleWith prog n ex o k := by
  induction n generalizing m ex o k with
  | zero =>
    have none : (o, k) ∉ ex.handles := by
      intro held
      have alive : k ∈ ex.lives := mem_lives.mpr (List.mem_map.mpr ⟨(o, k), held, rfl⟩)
      rw [Finset.card_eq_zero.mp (Nat.le_zero.mp bound)] at alive
      exact absurd alive (Finset.notMem_empty k)
    cases m with
    | zero => rfl
    | succ m => exact if_neg none
  | succ n ih =>
    obtain ⟨m, rfl⟩ : ∃ m', m = m' + 1 := ⟨m - 1, by omega⟩
    rw [dropHandleWith, dropHandleWith]
    split
    · rename_i held
      simp only
      split
      · rfl
      · rename_i last
        -- one life less is left for what the destructor and the data drop
        have fewer : ((ex.release o k).expire k).lives.card ≤ n := by
          have := lives_expire held last
          omega
        have agree : ∀ (s : Executor W) o k, s.lives.card ≤ n →
            dropHandleWith prog m s o k = dropHandleWith prog n s o k :=
          fun s o k few => ih (by omega) few o k
        have destructor := Steps.foldl_congr (p := fun s : Executor W => s.lives.card ≤ n)
          (f := applyHandleOp (dropHandleWith prog m)) (g := applyHandleOp (dropHandleWith prog n))
          (l := prog.onDrop ((ex.release o k).expire k) k) (fun s op few =>
            ⟨applyHandleOp_congr (fun o k => agree s o k few) op,
              lives_card_le (applyHandleOp_run (fun s o k => dropHandleWith_run prog n s o k) s op) few⟩) fewer
        have after := lives_card_le (Steps.foldl_steps (l := prog.onDrop ((ex.release o k).expire k) k)
          (fun s op _ => applyHandleOp_run (fun s o k => dropHandleWith_run prog n s o k) s op)
          ((ex.release o k).expire k)) fewer
        rw [destructor]
        exact Steps.foldl_congr (p := fun s : Executor W => s.lives.card ≤ n)
          (fun s j few => ⟨agree s _ j few, lives_card_le (dropHandleWith_run prog n s _ j) few⟩) after
    · rfl

/-- `dropHandle` runs every drop to its end. -/
theorem dropHandle_enough {n : Nat} {ex : Executor W} (enough : ex.handles.length ≤ n) (o : Owner) (k : Key) :
    dropHandleWith prog n ex o k = ex.dropHandle prog o k := by
  have bound : ex.lives.card ≤ ex.handles.length := by
    have := List.toFinset_card_le (ex.handles.map (·.2))
    rwa [List.length_map] at this
  exact dropHandleWith_enough prog enough bound o k

end Executor
end Wavelet
