import Wavelet.Cycle.Account

/-!
# What a node reads in its turn

In a cycle in which a node is not swept, the turns of its parents come before its own. So
its cycle function finds the data that the parents have at the end of the node loop, and
`has_mutated` tells it which of them broadcast in the cycle. If one of them did, the node runs.
-/

namespace Wavelet
namespace Executor

variable {W : Type} {prog : Program W} {now : CycleTime}

/-- What the cycle function of a node finds when it returns, and what it leaves of the data. -/
theorem returned_graphCycle {i : NodeIndex} {ex ex' : Executor W} {run : Run} {control : Control}
    (h : graphCycle prog now i ex = .ok (run, ex')) (returned : run.verdict = .returned control) :
    ∃ s : Executor W, s.world = ex.world ∧ s.inners = ex.inners ∧ s.epoch = ex.epoch ∧
      (prog.cycleFn s ⟨i, now, s.epoch⟩ run.node).2 = .ret control ∧
      ((∀ effect ∈ (prog.cycleFn s ⟨i, now, s.epoch⟩ run.node).1, effect.Plain) → ∀ p : W →
      Prop, prog.DropsKeep p →
        p ((prog.cycleFn s ⟨i, now, s.epoch⟩ run.node).1.foldl Effect.onWorld s.world) → p ex'.world) := by
  have call : ∀ {fn : CycleFn} {s mid : Executor W}, callCycleFn prog now i fn s =
      .ok (run.verdict, mid) → run.node = fn.state →
      (prog.cycleFn s ⟨i, now, s.epoch⟩ run.node).2 = .ret control ∧
      ((∀ effect ∈ (prog.cycleFn s ⟨i, now, s.epoch⟩ run.node).1, effect.Plain) →
        mid.world = (prog.cycleFn s ⟨i, now, s.epoch⟩ run.node).1.foldl Effect.onWorld s.world) := by
    intro fn s mid called node
    obtain ⟨answer, finished, after, answered, applied, ends⟩ := callCycleFn_ok prog called
    rw [node, answered]
    rcases ends with ⟨control', verdict, rfl, answers, rfl⟩ | ⟨no, -⟩
    · rw [returned] at verdict
      cases verdict
      refine ⟨answers, fun plain => ?_⟩
      have left := applyEffects_plain plain applied
      split
      · exact left
      · exact left
    · rw [returned] at no
      cases no
  obtain ⟨ctx, -, -, node, poisoned | spawned | built | dead⟩ := graphCycle_cases prog h
  · rw [poisoned.2.1] at returned
    cases returned
  · obtain ⟨answers, left⟩ := call spawned.2.2 node
    refine ⟨ex, rfl, rfl, rfl, answers, fun plain p _ good => ?_⟩
    rwa [left plain]
  · obtain ⟨-, -, -, mid, called, rfl⟩ := built
    obtain ⟨answers, left⟩ := call called node
    refine ⟨ex.addHandle .running run.node, rfl, rfl, rfl, answers, fun plain p drops good => ?_⟩
    apply dropHandle_world drops
    rwa [left plain]
  · rw [dead.2.2.2.1] at returned
    cases returned

/-- A run that does not call the cycle function changes nothing. -/
theorem skipped_graphCycle {i : NodeIndex} {ex ex' : Executor W} {run : Run}
    (h : graphCycle prog now i ex = .ok (run, ex'))
    (skipped : run.verdict = .poisoned ∨ run.verdict = .noHandle) : ex' = ex := by
  have called : ∀ {fn : CycleFn} {s mid : Executor W}, callCycleFn prog now i fn s ≠
      .ok (run.verdict, mid) := by
    intro fn s mid call
    obtain ⟨answer, finished, after, -, -, ⟨control, verdict, -⟩ | ⟨verdict, -⟩⟩ := callCycleFn_ok prog call
    · rw [verdict] at skipped
      simp at skipped
    · rw [verdict] at skipped
      simp at skipped
  obtain ⟨ctx, -, -, -, poisoned | spawned | built | dead⟩ := graphCycle_cases prog h
  · exact poisoned.2.2
  · exact absurd spawned.2.2 called
  · obtain ⟨-, -, -, mid, call, -⟩ := built
    exact absurd call called
  · exact dead.2.2.2.2

/-- A cycle function that only updates data and does not panic returns. -/
theorem unpanicked_graphCycle {i : NodeIndex} {ex ex' : Executor W} {run : Run}
    (h : graphCycle prog now i ex = .ok (run, ex'))
    (updates : ∀ s ctx, ∀ effect ∈ (prog.cycleFn s ctx run.node).1, ∃ f, effect = .handle (.update f))
    (returns : ∀ s ctx, (prog.cycleFn s ctx run.node).2 ≠ .panic) : run.verdict ≠ .panicked := by
  have all : ∀ (effects : List (Effect W)) (s : Executor W),
      (∀ effect ∈ effects, ∃ f, effect = .handle (.update f)) →
      (s.applyEffects prog effects).1 = true := by
    intro effects
    induction effects with
    | nil => exact fun _ _ => rfl
    | cons effect rest ih =>
      intro s plain
      obtain ⟨f, rfl⟩ := plain effect List.mem_cons_self
      exact ih _ fun e member => plain e (List.mem_cons_of_mem _ member)
  have called : ∀ {fn : CycleFn} {s mid : Executor W}, callCycleFn prog now i fn s =
      .ok (run.verdict, mid) → run.node = fn.state →
      run.verdict ≠ .panicked := by
    intro fn s mid call node panicked
    obtain ⟨answer, finished, after, answered, applied, ends⟩ := callCycleFn_ok prog call
    rw [← node] at answered
    rcases ends with ⟨control, no, -⟩ | ⟨-, -, ends⟩
    · rw [panicked] at no
      cases no
    · have done := all answer.1 s (by rw [← answered]; exact updates s _)
      rw [applied] at done
      exact returns s _ (by rw [answered]; exact ends done)
  obtain ⟨ctx, -, -, node, poisoned | spawned | built | dead⟩ := graphCycle_cases prog h
  · rw [poisoned.2.1]
    exact fun no => by cases no
  · exact called spawned.2.2 node
  · obtain ⟨-, -, -, mid, call, -⟩ := built
    exact called call node
  · rw [dead.2.2.2.1]
    exact fun no => by cases no

/-- A poisoned node is not called. -/
theorem poisoned_run {i : NodeIndex} {ex ex' : Executor W} {run : Run}
    (h : graphCycle prog now i ex = .ok (run, ex')) {ctx : NodeContext}
    (here : ex.graph.nodeWeight i = some ctx) (poisoned : ctx.poisoned = true) : run.verdict = .poisoned := by
  unfold graphCycle at h
  rw [here] at h
  simp only [poisoned, if_true] at h
  cases h
  rfl

namespace Stretch

variable {rels : List (Key × Relationship)} {c : Key} {polled final mid : Executor W}

/-! ## Every state of the loop -/

theorem wfAt (stretch : Stretch prog now rels c polled final) (turns : Turns prog now polled mid) :
    mid.scheduler.WF :=
  (Turns.path turns).schedulerWF stretch.wf

theorem queuedAt (stretch : Stretch prog now rels c polled final) (turns : Turns prog now polled mid)
    (rest : Turns prog now mid final) : mid.Queued :=
  (Turns.path turns).queued
  (Path.all (Turns.path rest) stretch.manuals) stretch.wf stretch.inPlace stretch.queued

theorem truthfulAt (stretch : Stretch prog now rels c polled final)
    (turns : Turns prog now polled mid) : mid.Truthful :=
  turns.kept stretch.inPlace (fun _ _ inPlace step truthful => truthful.turn inPlace step) stretch.truthful

/-- A run belongs to the node of its slot. -/
theorem occupant (stretch : Stretch prog now rels c polled final)
    (turns : Turns prog now polled mid) {run : Run} (member : run ∈ mid.runs) :
    polled.keyAt run.index = some run.node :=
  Turns.occupants turns (by rw [stretch.none]; exact fun _ no => by cases no) run member

/-- No parent runs after the node. -/
theorem parents_first (stretch : Stretch prog now rels c polled final) {later earlier : List Run} {run : Run}
    (runs : final.runs = later ++ run :: earlier) (own : run.node = c) :
    ∀ r ∈ later, ∀ kr ∈ rels, r.node ≠ kr.1 := by
  intro r member kr declared parent
  have ordered : polled.Ordered :=
    ⟨by rw [stretch.none]; exact .nil, by rw [stretch.none]; exact fun _ no => by cases no⟩
  obtain ⟨-, down⟩ :=
    visits_descending ⟨final, stretch.turns,
    .inl rfl⟩ stretch.manuals stretch.wf stretch.inPlace stretch.queued ordered
  rw [runs] at down
  have less := (List.pairwise_append.mp down).2.2 r member run List.mem_cons_self
  rw [stretch.inPlace.depthAt (stretch.occupant stretch.turns (by rw [runs]; simp)), own,
    stretch.inPlace.depthAt (stretch.occupant stretch.turns
        (by rw [runs]; exact List.mem_append_left _ member)), parent] at less
  exact absurd (stretch.lineage.above kr declared) (Nat.not_lt.mpr less)

/-- A parent does not terminate the loop after the node has run. -/
theorem parent_past (stretch : Stretch prog now rels c polled final) {ran last : Executor W}
    {latest run : Run} (turn : LastTurn prog now final latest ran last)
    (manuals : last.All Event.ManualPresent) (member : run ∈ final.runs) (own : run.node = c) :
    ∀ kr ∈ rels, latest.node ≠ kr.1 := by
  intro kr declared parent
  have ordered : polled.Ordered :=
    ⟨by rw [stretch.none]; exact .nil, by rw [stretch.none]; exact fun _ no => by cases no⟩
  obtain ⟨-, down⟩ :=
    visits_descending ⟨final, stretch.turns,
    .inr (.inr turn.step)⟩ manuals stretch.wf stretch.inPlace stretch.queued ordered
  rw [turn.runs] at down
  have less := (List.pairwise_cons.mp down).1 run member
  have occupant := turn.occupant
  rw [keyAt_of_same (Turns.same stretch.turns)] at occupant
  rw [stretch.inPlace.depthAt (stretch.occupant stretch.turns member), own,
    stretch.inPlace.depthAt occupant, parent] at less
  exact absurd (stretch.lineage.above kr declared) (Nat.not_lt.mpr less)

/-- However the loop ends, the end tells nothing new of the parents of a node that has run. -/
theorem ended (stretch : Stretch prog now rels c polled final) {exit : Exit} {last : Executor W}
    (manuals : last.All Event.ManualPresent)
    (ends : exit = .running ∧ nodeStep prog now final = .ok (.finished last) ∨
      exit = .terminated ∧ nodeStep prog now final = .ok (.terminated last)) :
    (∀ k, last.HasBroadcast k ↔ final.HasBroadcast k) ∧ ∀ run ∈ final.runs, run.node = c → ∀ kr ∈ rels,
      ∀ {α : Type} (cell : Cell W α), prog.Spares cell kr.1 → cell.get last.world = cell.get final.world := by
  rcases ends with ⟨-, finished⟩ | ⟨-, terminated⟩
  · obtain ⟨s, -, rfl⟩ := nodeStep_finished prog finished
    exact ⟨fun _ => Iff.rfl, fun _ _ _ _ _ _ _ _ => rfl⟩
  · obtain ⟨run', ran, turn⟩ := lastTurn_terminated terminated
    exact ⟨turn.hasBroadcast_iff, fun run member own kr declared α cell spares =>
      turn.spares spares (stretch.parent_past turn manuals member own kr declared)⟩

end Stretch

namespace Course

variable {rels : List (Key × Relationship)} {c : Key} {seeded : Prop} {polled final mid : Executor W}

/-! ## When the node runs -/

theorem accountAt (course : Course prog now rels c seeded polled final) (turns : Turns prog now polled mid) :
    Account (polled.inner c).index (Woken seeded (polled.inner c).index mid) mid := by
  induction turns with
  | refl => exact course.account
  | tail turns step ih =>
    obtain ⟨run, ran, turn⟩ := turnOf_again step
    refine ih.turn ?_ (course.wfAt turns) turn
    obtain ⟨ctx, there, -⟩ := Option.map_eq_some_iff.mp course.present
    rw [← Graph.isSome_core, (Turns.same turns).core, Graph.core_of_nodeWeight there]
    rfl

theorem index_of_run (course : Course prog now rels c seeded polled final)
    (turns : Turns prog now polled mid) {run : Run} (member : run ∈ mid.runs) :
    run.node = c ↔ run.index = (polled.inner c).index := by
  have here := course.occupant turns member
  constructor
  · intro own
    rw [own] at here
    exact (course.inPlace.of_keyAt here).2.symm
  · intro own
    have there : polled.keyAt (polled.inner c).index = some c := course.present
    rw [own, there] at here
    exact (Option.some.inj here).symm

/-- A node that is queued runs before the loop is over. -/
theorem runs_of_attended (course : Course prog now rels c seeded polled final)
    (turns : Turns prog now polled mid) (rest : Turns prog now mid final)
    (attended : mid.Attended (polled.inner c).index) : ∃ run ∈ final.runs, run.node = c := by
  rcases attended.turns (course.wfAt turns) rest with queued | ⟨run, member, here⟩
  · rw [course.finished] at queued
    cases queued
  · exact ⟨run, member, (course.index_of_run course.turns member).mpr here⟩

/-- An event for the node makes it run. -/
theorem runs_of_seed (course : Course prog now rels c seeded polled final) (seed : seeded)
    (top : polled.scheduler.currDepth = 0) :
    ∃ run ∈ final.runs, run.node = c := by
  apply course.runs_of_attended .refl course.turns
  apply (course.account.served (.inl seed)).resolve_right
  rw [top]
  exact Nat.not_lt_zero _

/-- The node runs after a parent that it is triggered by. -/
theorem runs_of_broadcast (course : Course prog now rels c seeded polled final) {p : Key}
    (trigger : (p, .trigger) ∈ rels) (broadcast : final.HasBroadcast p) :
    ∃ run ∈ final.runs, run.node = c := by
  obtain ⟨run, member, rfl, verdict⟩ := broadcast
  obtain ⟨later, earlier, runs⟩ := List.append_of_mem member
  obtain ⟨before, ran, after, turns, -, turn, rest⟩ := Turns.split course.turns course.none runs
  have here := course.occupant course.turns member
  have edge := course.lineage.triggers _ _ _ here course.present trigger
  have same := Turns.same (turns.tail turn.step)
  have queued := course.queuedAt turns (.head turn.step rest)
  have account := course.accountAt (turns.tail turn.step)
  have woken : Woken seeded (polled.inner c).index after := by
    refine .inr ⟨run, by rw [turn.runs]; exact List.mem_cons_self, ?_⟩
    rw [same.scheduledBy, Graph.scheduledBy, verdict]
    exact Graph.mem_triggeringEdges_iff.mpr edge
  apply course.runs_of_attended (turns.tail turn.step) rest
  apply (account.served woken).resolve_right
  -- the cursor is still at the parent
  have cursor : after.scheduler.currDepth = polled.graph.depthAt run.index := by
    rw [(Steady.of_handleControl turn.handled).currDepth, ← (Turns.same turns).depthAt]
    exact turn.cursor (course.wfAt turns) queued
  rw [cursor, same.depthAt, course.inPlace.depthAt here, course.inPlace.depthAt course.present]
  exact Nat.lt_asymm (course.lineage.above _ trigger)

/-- A node that an offer has queued was woken by something. -/
theorem woken_of_accepted (course : Course prog now rels c seeded polled final)
    (turns : Turns prog now polled mid) (accepted : (polled.inner c).index ∈ mid.accepted) :
    Woken seeded (polled.inner c).index mid := by
  obtain ⟨calls, turned⟩ := Turns.turned turns
  have origins := turned.origins course.origins
  obtain ⟨ctx, there, -⟩ := Option.map_eq_some_iff.mp course.present
  obtain ⟨w, here⟩ : ∃ w, mid.graph.nodeWeight (polled.inner c).index = some w := by
    apply Option.isSome_iff_exists.mp
    rw [← Graph.isSome_core, (Turns.same turns).core, Graph.core_of_nodeWeight there]
    rfl
  exact (course.accountAt turns).stamped.mp ⟨w, here, origins.stamped _ accepted w here⟩

/-- A node that no call of `schedule_node` addresses is queued by an offer, and so something
has woken it. -/
theorem woken_of_run (course : Course prog now rels c seeded polled final)
    {before ran after : Executor W} {run : Run} (turns : Turns prog now polled before)
    (turn : TurnOf prog now before run ran after) (own : run.index = (polled.inner c).index)
    (uncalled : ∀ calls mid, Turned prog now polled calls mid → (polled.inner c).index ∉ calls) :
    Woken seeded (polled.inner c).index before := by
  obtain ⟨calls, turned⟩ := Turns.turned turns
  have origins := turned.origins course.origins
  obtain ⟨s, popped, -⟩ := turn.cycled
  have queued : run.index ∈ before.scheduler.entries :=
    ((Scheduler.pop_some (course.wfAt turns) popped).mem_iff _).mpr (.inr rfl)
  have counted := origins.counted run.index
  have entries := List.count_pos_iff.mpr queued
  rw [own] at counted entries
  rw [List.count_eq_zero.mpr (uncalled calls before turned)] at counted
  exact course.woken_of_accepted turns (List.count_pos_iff.mp (by omega))

/-- Nothing wakes a node that observes its parents, unless one of them is swept. -/
theorem unaccepted_of_observes (course : Course prog now rels c seeded polled final)
    (unseeded : ¬ seeded) (told : Told rels c polled) (observes : ∀ kr ∈ rels, kr.2 = .observe)
    (turns : Turns prog now polled mid)
    (unswept : ∀ run ∈ mid.runs, ∀ kr ∈ rels, run.node = kr.1 → ¬ run.Swept) :
    (polled.inner c).index ∉ mid.accepted := by
  intro accepted
  obtain ⟨run, member, scheduled⟩ := (course.woken_of_accepted turns accepted).resolve_left unseeded
  have graph := Turns.same turns
  rw [graph.scheduledBy] at scheduled
  have parent : ∀ r, ⟨run.index, (polled.inner c).index, r⟩ ∈ polled.graph.edgeList →
      (run.node, r) ∈ rels := by
    intro r edge
    obtain ⟨p, here, declared⟩ := told _ _ r course.present edge
    rw [course.occupant turns member] at here
    cases here
    exact declared
  rw [Graph.scheduledBy] at scheduled
  cases control : run.verdict.control with
  | broadcast =>
    rw [control] at scheduled
    have declared := parent _ (Graph.mem_triggeringEdges_iff.mp scheduled)
    cases observes _ declared
  | sweep =>
    have adj : polled.graph.Adj run.index (polled.inner c).index := Graph.adj_of_scheduledBy scheduled
    obtain ⟨r, edge⟩ := adj
    exact unswept run member _ (parent r edge) rfl control
  | unchanged | terminate =>
    rw [control] at scheduled
    cases scheduled

/-- A node that no event wakes and that is not swept runs after the broadcast of a node that triggers it. -/
theorem broadcaster_of_run (course : Course prog now rels c seeded polled final) (unseeded : ¬ seeded)
    (uncalled : ∀ calls mid, Turned prog now polled calls mid → (polled.inner c).index ∉ calls) {run : Run}
    (member : run ∈ final.runs) (own : run.node = c) (unswept : ¬ run.Swept) :
    ∃ parent ∈ final.runs, parent.verdict = .returned .broadcast ∧
      ⟨parent.index, (polled.inner c).index, .trigger⟩ ∈ polled.graph.edgeList := by
  obtain ⟨later, earlier, runs⟩ := List.append_of_mem member
  obtain ⟨before, ran, after, turns, -, turn, rest⟩ := Turns.split course.turns course.none runs
  have index := (course.index_of_run course.turns member).mp own
  obtain ⟨parent, past, scheduled⟩ := (course.woken_of_run turns turn index uncalled).resolve_left unseeded
  have edge := Graph.adj_of_scheduledBy scheduled
  obtain ⟨latest, kept⟩ := Turns.runs (.head turn.step rest : Turns prog now before final)
  -- a parent that is swept would have poisoned the node
  have sound : ¬ parent.Swept := by
    intro swept
    have poisoned := Turns.poisons turns course.none parent past swept _ edge
    obtain ⟨s, -, cycled⟩ := turn.cycled
    obtain ⟨ctx, weight, bad⟩ := poisoned
    rw [← index] at weight
    have verdict := poisoned_run cycled weight bad
    exact unswept (by rw [Run.Swept, verdict]; rfl)
  rw [Graph.scheduledBy] at scheduled
  unfold Run.Swept at sound
  refine ⟨parent, by rw [kept]; exact List.mem_append_right _ past, ?_⟩
  cases verdict : parent.verdict with
  | returned control =>
    rw [verdict] at scheduled sound
    cases control with
    | broadcast =>
      refine ⟨rfl, ?_⟩
      rw [← (Turns.same turns).edges]
      exact Graph.mem_triggeringEdges_iff.mp scheduled
    | unchanged => cases scheduled
    | terminate => cases scheduled
    | sweep => exact absurd rfl sound
  | _ =>
    rw [verdict] at sound
    exact absurd rfl sound

/-- If only its parents have edges to it, one of them broadcast. -/
theorem broadcast_of_run (course : Course prog now rels c seeded polled final)
    (only : Only rels c polled) (unseeded : ¬ seeded)
    (uncalled : ∀ calls mid, Turned prog now polled calls mid → (polled.inner c).index ∉ calls) {run : Run}
    (member : run ∈ final.runs) (own : run.node = c) (unswept : ¬ run.Swept) :
    ∃ kr ∈ rels, final.HasBroadcast kr.1 := by
  obtain ⟨parent, ran, verdict, edge⟩ := course.broadcaster_of_run unseeded uncalled member own unswept
  obtain ⟨p, r, here, declared⟩ := only _ _ course.present ⟨_, edge⟩
  rw [course.occupant course.turns ran] at here
  exact ⟨_, declared, parent, ran, Option.some.inj here, verdict⟩

/-- If its edges stand for its relationships, one that triggers it broadcast. -/
theorem trigger_of_run (course : Course prog now rels c seeded polled final)
    (told : Told rels c polled) (unseeded : ¬ seeded)
    (uncalled : ∀ calls mid, Turned prog now polled calls mid → (polled.inner c).index ∉ calls) {run : Run}
    (member : run ∈ final.runs) (own : run.node = c) (unswept : ¬ run.Swept) :
    ∃ p, (p, .trigger) ∈ rels ∧ final.HasBroadcast p := by
  obtain ⟨parent, ran, verdict, edge⟩ := course.broadcaster_of_run unseeded uncalled member own unswept
  obtain ⟨p, here, declared⟩ := told _ _ _ course.present edge
  rw [course.occupant course.turns ran] at here
  exact ⟨p, declared, parent, ran, Option.some.inj here, verdict⟩

theorem control_of_run (course : Course prog now rels c seeded polled final) {run : Run}
    (member : run ∈ final.runs) (unswept : ¬ run.Swept) :
    run.verdict = .returned .unchanged ∨ run.verdict = .returned .broadcast := by
  obtain ⟨later, earlier, runs⟩ := List.append_of_mem member
  obtain ⟨before, ran, after, -, -, turn, -⟩ := Turns.split course.turns course.none runs
  have goesOn := turn.goesOn
  unfold Run.Swept at unswept
  cases verdict : run.verdict with
  | returned control =>
    rw [verdict] at goesOn unswept
    cases control with
    | unchanged => exact .inl rfl
    | broadcast => exact .inr rfl
    | sweep => exact absurd rfl unswept
    | terminate => exact absurd rfl goesOn
  | _ =>
    rw [verdict] at unswept
    exact absurd rfl unswept

end Course

theorem Stretch.unpanicked {rels : List (Key × Relationship)} {c : Key} {polled final : Executor W}
    (stretch : Stretch prog now rels c polled final)
    (updates : ∀ s ctx, ∀ effect ∈ (prog.cycleFn s ctx c).1, ∃ f, effect = .handle (.update f))
    (returns : ∀ s ctx, (prog.cycleFn s ctx c).2 ≠ .panic) :
    ∀ run ∈ final.runs, run.node = c → run.verdict ≠ .panicked := by
  rintro run member rfl
  obtain ⟨later, earlier, runs⟩ := List.append_of_mem member
  obtain ⟨before, ran, after, -, -, turn, -⟩ := Turns.split stretch.turns stretch.none runs
  obtain ⟨s, -, cycled⟩ := turn.cycled
  exact unpanicked_graphCycle cycled updates returns

/-! ## The turns of the node -/

/-- The verdicts of a node in the current cycle, newest first. -/
def verdicts (ex : Executor W) (k : Key) : List Verdict :=
  (ex.runs.filter fun run => run.node = k).map (·.verdict)

theorem hasBroadcast_iff (ex : Executor W) (k : Key) :
    ex.HasBroadcast k ↔ .returned .broadcast ∈ ex.verdicts k := by
  simp [HasBroadcast, verdicts, and_assoc]

theorem Sole.verdicts {c : Key} {start last before ran after : Executor W} {run : Run}
    (sole : Sole prog now c start last before run ran after) : last.verdicts c = [run.verdict] := by
  obtain ⟨later, runs, others⟩ := sole.later
  have none : ∀ {l : List Run}, (∀ r ∈ l, r.node ≠ c) → l.filter (fun r => decide (r.node = c)) = [] := by
    intro l apart
    rw [List.filter_eq_nil_iff]
    intro r member
    simpa using apart r member
  rw [Executor.verdicts, runs, sole.turn.runs, List.filter_append, none others,
    List.filter_cons_of_pos (by simpa using sole.own),
    none sole.earlier]
  rfl

/-- The runs of a node are those at its index. -/
theorem Course.length_verdicts {rels : List (Key × Relationship)} {c : Key} {seeded : Prop}
    {polled final mid : Executor W} (course : Course prog now rels c seeded polled final)
    (turns : Turns prog now polled mid) :
    (mid.verdicts c).length = (mid.runs.map (·.index)).count (polled.inner c).index := by
  have same : mid.verdicts c = (mid.runs.filter fun run => run.index = (polled.inner c).index).map
      (·.verdict) := by
    rw [verdicts]
    congr 1
    apply List.filter_congr
    intro run member
    rw [decide_eq_decide]
    exact course.index_of_run turns member
  rw [same, List.length_map, ← List.countP_eq_length_filter, List.count, List.countP_map]
  apply List.countP_congr
  intro run _
  simp

/-- A node that no call of `schedule_node` addresses runs at most once. -/
theorem Course.runs_once {rels : List (Key × Relationship)} {c : Key} {seeded : Prop}
    {polled final : Executor W} (course : Course prog now rels c seeded polled final)
    (uncalled : ∀ calls mid, Turned prog now polled calls mid → (polled.inner c).index ∉ calls) :
    (final.verdicts c).length ≤ 1 := by
  obtain ⟨calls, turned⟩ := Turns.turned course.turns
  have origins := turned.origins course.origins
  have counted := origins.counted (polled.inner c).index
  rw [List.count_eq_zero.mpr (uncalled calls final turned)] at counted
  have single := List.nodup_iff_count_le_one.mp origins.distinct (polled.inner c).index
  rw [course.length_verdicts course.turns]
  omega

/-- What `s` shows of the parents is what they leave at the end of the loop. -/
structure Sees (prog : Program W) (rels : List (Key × Relationship)) (final s : Executor W) : Prop where
  mutated : ∀ kr ∈ rels, (s.inner kr.1).mutEpoch = s.epoch ↔ final.HasBroadcast kr.1
  data : ∀ kr ∈ rels, ∀ {α : Type} (cell : Cell W α), prog.Spares cell kr.1 →
    cell.get s.world = cell.get final.world

theorem Sees.hasMutated {rels : List (Key × Relationship)} {final s : Executor W}
    (sees : Sees prog rels final s) {kr : Key × Relationship} (declared : kr ∈ rels)
    {ctx : ExecutionContext} (epoch : ctx.epoch = s.epoch) :
    s.hasMutated ctx kr.1 = decide (final.HasBroadcast kr.1) := by
  rw [Executor.hasMutated, epoch]
  exact decide_eq_decide.mpr (sees.mutated kr declared)

namespace Stretch

variable {rels : List (Key × Relationship)} {c : Key} {polled final mid : Executor W}

theorem sees (stretch : Stretch prog now rels c polled final) {before ran after : Executor W} {run : Run}
    (turns : Turns prog now polled before) (turn : TurnOf prog now before run ran after)
    (rest : Turns prog now after final) (own : run.node = c) : Sees prog rels final before := by
  have whole : Turns prog now before final := .head turn.step rest
  obtain ⟨later, runs⟩ := Turns.runs rest
  rw [turn.runs] at runs
  have split : final.runs = (later ++ [run]) ++ before.runs := by rw [runs]; simp
  have others : ∀ kr ∈ rels, ∀ r ∈ later ++ [run], r.node ≠ kr.1 := by
    intro kr declared r member
    rcases List.mem_append.mp member with after | here
    · exact stretch.parents_first runs own r after kr declared
    · rw [List.mem_singleton.mp here, own]
      exact (Nat.ne_of_lt (stretch.lineage.older kr declared)).symm
  constructor
  case mutated =>
    intro kr declared
    rw [stretch.truthfulAt turns]
    constructor
    · rintro ⟨r, member, facts⟩
      exact ⟨r, by rw [split]; exact List.mem_append_right _ member, facts⟩
    · rintro ⟨r, member, parent, verdict⟩
      rw [split] at member
      rcases List.mem_append.mp member with late | early
      · exact absurd parent (others kr declared r late)
      · exact ⟨r, early, parent, verdict⟩
  case data =>
    intro kr declared α cell spares
    exact (Turns.spares whole spares split (others kr declared)).symm

/-- The data of the node goes through one step of `r` for each of its runs, if `r` is what
its cycle function does to it when it sees its parents as they are in the end. -/
theorem trail (stretch : Stretch prog now rels c polled final) {α : Type} {own : Cell W α}
    (spares : prog.Spares own c) {r : α → Verdict → α → Prop} (turns : Turns prog now polled mid)
    (rest : Turns prog now mid final)
    (unpanicked : ∀ run ∈ final.runs, run.node = c → run.verdict ≠ .panicked)
    (skipped : ∀ a verdict, verdict = .poisoned ∨ verdict = .noHandle → r a verdict a)
    (follows : ∀ (s : Executor W) (i : NodeIndex) (control : Control), Sees prog rels final s →
      (prog.cycleFn s ⟨i, now, s.epoch⟩ c).2 = .ret control →
      (∀ effect ∈ (prog.cycleFn s ⟨i, now, s.epoch⟩ c).1, effect.Plain) ∧
        r (own.get s.world) (.returned control)
        (own.get ((prog.cycleFn s ⟨i, now, s.epoch⟩ c).1.foldl Effect.onWorld s.world))) :
    Steps.Trail r (own.get polled.world) (mid.verdicts c) (own.get mid.world) := by
  induction turns with
  | refl =>
    rw [verdicts, stretch.none]
    exact .nil
  | @tail before after turns step ih =>
    obtain ⟨run, ran, turn⟩ := turnOf_again step
    have past := ih (.head step rest)
    rw [verdicts, turn.runs]
    by_cases node : run.node = c
    · rw [List.filter_cons_of_pos (by simpa using node), List.map_cons]
      refine past.cons ?_
      obtain ⟨later, split⟩ := Turns.runs rest
      have member : run ∈ final.runs := by rw [split, turn.runs]; simp
      obtain ⟨sch, -, cycled⟩ := turn.cycled
      rw [turn.world]
      cases verdict : run.verdict with
      | panicked => exact absurd verdict (unpanicked run member node)
      | poisoned =>
        rw [skipped_graphCycle cycled (.inl verdict)]
        exact skipped _ _ (.inl rfl)
      | noHandle =>
        rw [skipped_graphCycle cycled (.inr verdict)]
        exact skipped _ _ (.inr rfl)
      | returned control =>
        have sees := stretch.sees turns turn rest node
        obtain ⟨s, world, inners, epoch, answers, leaves⟩ := returned_graphCycle cycled verdict
        rw [node] at answers leaves
        replace world : s.world = before.world := world
        have sees' : Sees prog rels final s := by
          constructor
          · intro kr declared
            rw [inner_of_inners inners, epoch]
            exact sees.mutated kr declared
          · intro kr declared β cell kept
            rw [world]
            exact sees.data kr declared cell kept
        obtain ⟨plain, here⟩ := follows s run.index control sees' answers
        have left := leaves plain (fun w => own.get w = own.get _) (spares.drops _) rfl
        rw [left, ← world]
        exact here
    · rw [List.filter_cons_of_neg (by simpa using node), turn.spares spares node]
      exact past

end Stretch
end Executor
end Wavelet
