import Wavelet.Wsnl.Outlets

/-!
# Routing a batch

The two routers that take the batches of a source. In a cycle in which the source sends a
batch, the router runs once, after it and with its batch. An output is not queued for any
event of the cycle, so it runs as often as the router schedules it: once if it has a share.
-/

namespace Wavelet

variable {W K T : Type}

/-! ## The source -/

namespace RouterKind

variable (kind : RouterKind W K T)

/-- Where the batches come from. -/
def source : Option (Node W (List T)) :=
  match kind with
  | .stream _ source | .takeStream _ source => some source
  | .channel .. => none

/-- What is left of a batch that has been routed. -/
def leaves (batch : List T) : List T :=
  match kind with
  | .stream .. | .channel .. => batch
  | .takeStream .. => []

end RouterKind

/-- The data of the source is changed by its own cycle function and by the router alone. -/
structure Program.Feeds (prog : Program W) (kind : RouterKind W K T) (source : Node W (List T))
    (c : Key) : Prop where
  given : kind.source = some source
  runs : ∀ v k, k ≠ source.key → k ≠ c → prog.RunsKeep (fun w => source.borrow w = v) k
  drops : ∀ v, prog.DropsKeep fun w => source.borrow w = v
  apart : kind.cell.Apart source.data

variable {kind : RouterKind W K T} {route : T → K} {threads : Threads W T} {c : Key}
  {outlets : List (Outlet K)} {prog : Program W}
  {source : Node W (List T)}

namespace RouterKind

theorem takes_of_source (given : kind.source = some source) (ex : Executor W) (ctx : ExecutionContext) :
    kind.takes threads ex ctx = source.borrow ex.world := by
  cases kind with
  | stream cell source' | takeStream cell source' => cases given; rfl
  | channel both pollLimit => cases given

variable [DecidableEq K]

/-- Routing is transparent. -/
theorem unchanged_of_source (given : kind.source = some source) (apart : kind.Apart)
    {ex : Executor W} {ctx : ExecutionContext} (low : (kind.cell.get ex.world).Low ex) :
    (kind.cycleFn route threads ex ctx).2 = .ret .unchanged := by
  cases kind with
  | stream cell source' =>
    obtain ⟨d', answer, -⟩ := @routeStream_returns W K T _ cell route ex ctx source'.data low
    exact congrArg Prod.snd answer
  | takeStream cell source' =>
    obtain ⟨d', answer, -⟩ := @takeRouteStream_returns W K T _ cell route ex ctx source'.data apart low
    exact congrArg Prod.snd answer
  | channel both pollLimit => cases given

/-- What a call leaves in the source. -/
theorem leaves_of_source (given : kind.source = some source)
    (disjoint : kind.cell.Apart source.data) (apart : kind.Apart) {ex : Executor W}
    {ctx : ExecutionContext} (low : (kind.cell.get ex.world).Low ex) :
    source.borrow ((kind.cycleFn route threads ex ctx).1.foldl Effect.onWorld ex.world) =
      kind.leaves (source.borrow ex.world) := by
  have untouched : ∀ {cell : Cell W (Router K T)} {d d' : Draft W}, cell.Apart source.data →
      d.Alters cell d' → source.borrow d'.world = source.borrow d.world := by
    intro cell d d' apart alters
    exact alters (fun w => source.borrow w = source.borrow d.world)
      (fun f w same => (apart _ w).trans same) rfl
  cases kind with
  | stream cell source' =>
    cases given
    obtain ⟨d', answer, routes, alters⟩ := @routeStream_returns W K T _ cell route ex ctx source.data low
    have effects : ((RouterKind.stream cell source).cycleFn route threads ex ctx).1 = d'.effects :=
      congrArg Prod.fst answer
    have start : d'.start = ex.world := routes.start
    rw [effects, ← start]
    exact (untouched disjoint alters).trans (congrArg source.borrow start.symm)
  | takeStream cell source' =>
    cases given
    obtain ⟨d', answer, routes, alters⟩ :=
      @takeRouteStream_returns W K T _ cell route ex ctx source.data apart low
    have effects : ((RouterKind.takeStream cell source).cycleFn route threads ex ctx).1 = d'.effects :=
      congrArg Prod.fst answer
    have start : d'.start = ex.world := routes.start
    have empty : source.borrow (Draft.drained source.data ex.world).world = [] := by
      rw [Draft.drained, Draft.world_update]
      exact source.data.get_put _ _
    rw [effects, ← start]
    exact (untouched disjoint alters).trans empty
  | channel both pollLimit => cases given

end RouterKind

namespace Executor

/-! ## The edges -/

/-- The router is triggered by `p`, and its outputs observe it. -/
structure Kin (p c : Key) (outlets : List (Outlet K)) (ex : Executor W) : Prop where
  router : Lineage [(p, .trigger)] c ex
  outputs : ∀ outlet ∈ outlets, Lineage [(p, .observe)] outlet.node ex
  told : ex.Present p → Told [(p, .trigger)] c ex ∧ ∀ outlet ∈ outlets, Told [(p, .observe)] outlet.node ex

theorem Kin.path {p : Key} {ex ex' : Executor W} (kin : Kin p c outlets ex) (path : Path ex ex') :
    Kin p c outlets ex' := by
  obtain ⟨router, outputs, told⟩ := kin
  constructor
  · exact path.lineage router
  · exact fun outlet member => path.lineage (outputs outlet member)
  · intro present
    have older := router.older _ (List.mem_singleton_self _)
    obtain ⟨first, rest⟩ := told (path.present (Nat.lt_trans older router.built) present)
    exact ⟨path.told router.built first, fun outlet member => path.told
      (outputs outlet member).built (rest outlet member)⟩

/-- The edge of a node that is built with one parent. -/
theorem lineage_of_build {args : BuildArgs} {p : Key} {r : Relationship} {ex built : Executor W}
    (lived : ex.Lived) (parent : args.relationships = [(p, r)]) (known : p < ex.inners.length)
    (builds : ex.build args = .ok built) :
    Lineage [(p, r)] ex.inners.length built ∧ (built.Present p → Told [(p, r)] ex.inners.length built) := by
  have whole := build_path builds
  obtain ⟨depth, graph, handles, vacant, deep, edges, -, path⟩ := build_ok builds
  have known' : ∀ kr ∈ args.relationships, kr.1 < ex.inners.length := by
    intro kr declared
    rw [parent, List.mem_singleton] at declared
    rwa [declared]
  have start := Lineage.start lived.inPlace known' deep edges
  rw [parent] at start
  refine ⟨path.lineage start, fun present => ?_⟩
  have present' : ∀ kr ∈ args.relationships, ex.Present kr.1 := by
    intro kr declared
    rw [parent, List.mem_singleton] at declared
    rw [declared]
    exact whole.present known present
  have told := Told.start lived.inPlace lived.linked vacant present' edges
  rw [parent] at told
  exact path.told start.built told

variable [DecidableEq K]

theorem RouterLife.kin {p : Key} {history : List (Service W K T)} {ex : Executor W}
    (life : RouterLife kind route c outlets history ex) (parent : kind.parent = some p) :
    Kin p c outlets ex := by
  induction life with
  | @made prog threads index order ops before ex routes makes lived next known made =>
    obtain ⟨init, args, rfl, -, -, relationships, -⟩ := RouterKind.construct_of_makes makes
    rw [parent] at relationships
    rw [construct, execOps, List.foldlM_cons] at made
    obtain ⟨set, first, rest⟩ := Steps.bind_ok' made
    rw [List.foldlM_cons] at rest
    obtain ⟨built, builds, moves⟩ := Steps.bind_ok' rest
    have setting := lived.op first
    cases first
    subst next
    obtain ⟨lineage, told⟩ := lineage_of_build setting relationships (known p parent) builds
    have here : Kin p before.inners.length ([] : List (Outlet K)) built :=
      ⟨lineage, (fun _ none => by cases none), fun present => ⟨told present, fun _ none => by cases none⟩⟩
    exact here.path (execOps_path prog moves)
  | op prog threads op life routes leaves applied ih => exact ih.path (execOp_path prog applied)
  | @routed prog threads key index outlets history ex ex' life routes alive applied ih =>
    have path := execOps_path prog applied
    obtain ⟨router, outputs, told⟩ := ih.path path
    rcases route_cases outlets applied with ⟨k, same, -⟩ | ⟨args, built, after, -, observes, -, builds, rfl⟩
    · rw [same]
      exact ⟨router, outputs, told⟩
    · rw [after]
      rw [parent] at observes
      have known : p < ex.inners.length :=
        Nat.lt_trans (ih.router.older _ (List.mem_singleton_self _)) ih.router.built
      obtain ⟨lineage, fresh⟩ := lineage_of_build life.stands.lived observes known builds
      refine ⟨router, fun outlet member => ?_, fun present => ⟨(told present).1, fun outlet member => ?_⟩⟩
      · rcases List.mem_append.mp member with old | new
        · exact outputs outlet old
        · rw [List.mem_singleton.mp new]
          exact ⟨lineage.built, lineage.older, lineage.above, lineage.triggers⟩
      · rcases List.mem_append.mp member with old | new
        · exact (told present).2 outlet old
        · rw [List.mem_singleton.mp new]
          exact fresh present
  | opens tickets life ih => exact ih.path (.single (.code (.spawns tickets _)))
  | closes prog threads ticket life routes ih => exact ih.path (CodeRun.path (dropOwner_run prog ..).code)
  | pass prog threads fuel input life routes pass ih =>
    obtain ⟨first, second⟩ := pass.path life.stands.lived.wf
    exact ih.path (first.trans second)
  | stopped prog threads fuel input exit life routes no nodes ih => exact ih.path (runNodes_path prog nodes)

/-! ## The node loop -/

/-- A node loop as a router and its outputs go through it. -/
structure Round (prog : Program W) (kind : RouterKind W K T) (route : T → K) (threads : Threads W T)
    (c : Key) (outlets : List (Outlet K)) (now : CycleTime) (start : Key → List T)
    (polled final : Executor W) : Prop where
  routes : prog.Routes kind route threads c outlets
  distinct : Distinct c outlets
  abreast : ∃ depth, Abreast depth c outlets polled
  serving : Serving kind c outlets (Outlet.Stamped route polled.epoch []) (Outlet.holds route start []) polled
  turns : Turns prog now polled final
  drained : ∃ s, final.scheduler.pop = (none, s)
  manuals : final.All Event.ManualPresent

namespace Round

variable {now : CycleTime} {start : Key → List T} {polled final mid before ran after s : Executor W}
  {run : Run} {ctx : ExecutionContext}

theorem onward (round : Round prog kind route threads c outlets now start polled final)
    (turns : Turns prog now polled mid) :
    Turns prog now mid final := by
  obtain ⟨s, drained⟩ := round.drained
  exact turns.onward round.turns drained

theorem abreastAt (round : Round prog kind route threads c outlets now start polled final)
    (turns : Turns prog now polled mid) :
    ∃ depth, Abreast depth c outlets mid := by
  obtain ⟨depth, abreast⟩ := round.abreast
  exact ⟨depth, abreast.path (Turns.path turns) (Path.all (Turns.path (round.onward turns)) round.manuals)⟩

theorem servingAt (round : Round prog kind route threads c outlets now start polled final)
    (turns : Turns prog now polled mid) :
    ∃ items, Serving kind c outlets (Outlet.Stamped route polled.epoch items)
      (Outlet.holds route start items) mid := by
  induction turns with
  | refl => exact ⟨[], round.serving⟩
  | tail turns step ih =>
    obtain ⟨items, serving⟩ := ih
    obtain ⟨depth, abreast⟩ := round.abreastAt turns
    exact ⟨_, Serving.turn round.routes round.distinct abreast step (Turns.epoch turns).symm serving⟩

/-- A call of the router in a loop. -/
theorem called (round : Round prog kind route threads c outlets now start polled final)
    (turns : Turns prog now polled before) (turn : TurnOf prog now before run ran after)
    (calls : Executor.called c now before = some (s, ctx)) :
    CallOf prog c before run after s ctx ∧ ∃ last, CallEnds prog kind route threads run s ctx last after := by
  obtain ⟨depth, abreast⟩ := round.abreastAt turns
  obtain ⟨items, serving⟩ := round.servingAt turns
  have call := turn.call calls abreast.router abreast.wf abreast.queued
  have here : Serving kind c outlets (Outlet.Stamped route polled.epoch items)
      (Outlet.holds route start items) s :=
    Serving.lasting call.ages call.world serving
  exact ⟨call, call.ends round.routes abreast turn.occupant fun key entry cached => (here.entries key entry cached).1⟩

/-- The `expect` on `schedule_node` does not fail. -/
theorem unpanicked (round : Round prog kind route threads c outlets now start polled final)
    (none : polled.runs = []) :
    ∀ run ∈ final.runs, run.node = c → run.verdict ≠ .panicked := by
  intro run member own panicked
  obtain ⟨later, earlier, runs⟩ := List.append_of_mem member
  obtain ⟨before, ran, after, turns, -, turn, -⟩ := Turns.split round.turns none runs
  cases calls : Executor.called c now before with
  | none =>
    obtain ⟨skipped, -⟩ := turn.skipped calls own
    simp [panicked] at skipped
  | some call =>
    obtain ⟨-, last, ends⟩ := round.called turns turn calls
    obtain ⟨control, verdict, -⟩ := ends.returns
    rw [panicked] at verdict
    cases verdict

/-- What a call of the router puts into the queues: the outputs that its items schedule, which
are in the graph. -/
theorem hands (round : Round prog kind route threads c outlets now start polled final)
    (turns : Turns prog now polled before) (turn : TurnOf prog now before run ran after)
    (calls : Executor.called c now before = some (s, ctx)) :
    let scheduled :=
  (kind.cell.get before.world).callsFor route s.Alive polled.epoch (kind.takes threads s ctx)
    handedIn prog now before = scheduled.map (fun k => (before.inner k).index) ∧
      ∀ k ∈ scheduled, before.Present k := by
  obtain ⟨call, last, ends⟩ := round.called turns turn calls
  have answers : Answers kind.cell route s ctx.epoch (kind.takes threads s ctx)
      (kind.cycleFn route threads s ctx) :=
    RouterKind.answers round.routes.apart ends.low
  obtain ⟨-, d, d', effects, -, data, none, routed⟩ := answers
  have epoch : ctx.epoch = polled.epoch := by rw [call.epoch, call.ages.epoch, Turns.epoch turns]
  have listed : d'.effects.filterMap Effect.scheduled =
      (kind.cell.get before.world).callsFor route s.Alive polled.epoch (kind.takes threads s ctx) := by
    have same : d'.effects.filterMap Effect.scheduled = d'.calls := rfl
    rw [same, routed.calls, none, data, epoch, call.world, List.nil_append]
  have applied := ends.applied
  rw [effects] at applied
  have low : ∀ k ∈ d'.effects.filterMap Effect.scheduled, s.Alive k ∧
      s.scheduler.currDepth ≤ (s.inner k).depth := by
    intro k member
    rw [listed, ← call.world] at member
    obtain ⟨key, entry, cached, lives, rfl⟩ := Router.mem_callsFor member
    exact ⟨lives, ends.low key entry cached lives⟩
  have rest : Path last final := ends.path.trans (Turns.path (round.onward (turns.tail turn.step)))
  obtain ⟨hands, present⟩ := handed_plain d'.plain applied low (Path.all rest round.manuals)
  rw [listed] at hands present
  rw [handedIn_of_called calls, round.routes.cycles, effects, hands]
  have inner : ∀ k, s.inner k = before.inner k := inner_of_inners call.inners
  simp only [inner, true_and]
  intro k member
  have here := present k member
  rwa [Present, inner, keyAt, call.graph] at here

/-- The nodes keep their places. -/
theorem present_iff (round : Round prog kind route threads c outlets now start polled final)
    (turns : Turns prog now polled mid) {outlet : Outlet K} (member : outlet ∈ outlets) :
    (mid.inner outlet.node).index = (polled.inner outlet.node).index ∧
      (mid.Present outlet.node ↔ polled.Present outlet.node) := by
  obtain ⟨depth, abreast⟩ := round.abreast
  have index := (Path.seated (Turns.path turns) (abreast.outputs outlet member).built).index
  exact ⟨index, by rw [Present, index, keyAt_of_same (Turns.same turns)]; rfl⟩

/-- Only outputs are scheduled. -/
theorem outlet_of_scheduled (round : Round prog kind route threads c outlets now start polled final)
    (turns : Turns prog now polled mid) {alive : Key → Prop} [DecidablePred alive] {items : List T} {k : Key}
    (member : k ∈ (kind.cell.get mid.world).callsFor route alive polled.epoch items) :
    ∃ outlet ∈ outlets, outlet.node = k := by
  obtain ⟨items, serving⟩ := round.servingAt turns
  obtain ⟨key, entry, cached, -, rfl⟩ := Router.mem_callsFor member
  exact ⟨_, (serving.entries key entry cached).1, rfl⟩

/-- The index of another node is put into the queues by none but the other nodes. -/
theorem quiet (round : Round prog kind route threads c outlets now start polled final) {i : NodeIndex}
    (still : ∀ mid, Turns prog now polled mid → Executor.called c now mid = none → i ∉ handedIn prog now mid)
    (apart : ∀ outlet ∈ outlets, polled.Present outlet.node → (polled.inner outlet.node).index ≠ i) :
    ∀ calls mid, Turned prog now polled calls mid → i ∉ calls := by
  intro calls mid turned
  induction turned with
  | start => exact List.not_mem_nil
  | @again calls before after turned step ih =>
    rw [List.mem_append, not_or]
    refine ⟨ih, ?_⟩
    have turns := turned.turns
    obtain ⟨run, ran, turn⟩ := turnOf_again step
    cases calls : Executor.called c now before with
    | none => exact still before turns calls
    | some call =>
      obtain ⟨hands, present⟩ := round.hands turns turn calls
      rw [hands]
      intro member
      obtain ⟨k, scheduled, index⟩ := List.mem_map.mp member
      obtain ⟨outlet, listed, rfl⟩ := round.outlet_of_scheduled turns scheduled
      obtain ⟨same, there⟩ := round.present_iff turns listed
      rw [same] at index
      exact apart outlet listed (there.mp (present _ scheduled)) index

/-- The router puts an output into the queues once, if it has not done so before in the cycle
and has an item for it. -/
theorem count_hands (round : Round prog kind route threads c outlets now start polled final)
    (turns : Turns prog now polled before) (turn : TurnOf prog now before run ran after)
    (calls : Executor.called c now before = some (s, ctx))
    (serving : Serving kind c outlets (Outlet.Stamped route polled.epoch [])
      (Outlet.holds route start []) before) {outlet : Outlet K} (member : outlet ∈ outlets)
    (alive : s.Alive outlet.node) (present : polled.Present outlet.node) :
    (handedIn prog now before).count (polled.inner outlet.node).index =
      if outlet.share route (kind.takes threads s ctx) = [] then 0 else 1 := by
  obtain ⟨call, -⟩ := round.called turns turn calls
  obtain ⟨hands, there⟩ := round.hands turns turn calls
  obtain ⟨index, kept⟩ := round.present_iff turns member
  have here : Serving kind c outlets (Outlet.Stamped route polled.epoch []) (Outlet.holds route start []) s :=
    Serving.lasting call.ages call.world serving
  have epoch : s.epoch = polled.epoch := by rw [call.ages.epoch, Turns.epoch turns]
  rw [Serving, call.world, epoch] at here
  have once := here.count_callsFor call.alive round.distinct.outputs (kind.takes threads s ctx) member alive
  have single :
      ((kind.cell.get before.world).callsFor route s.Alive polled.epoch (kind.takes threads s ctx)).countP
      (fun k => decide ((before.inner k).index = (before.inner outlet.node).index)) =
      ((kind.cell.get before.world).callsFor route s.Alive polled.epoch
        (kind.takes threads s ctx)).count outlet.node := by
    apply List.countP_congr
    intro k scheduled
    rw [decide_eq_true_iff, beq_iff_eq]
    constructor
    · exact key_of_place (there k scheduled) (kept.mpr present)
    · rintro rfl
      rfl
  rw [hands, ← index, List.count, List.countP_map]
  refine Eq.trans (List.countP_congr fun k _ => ?_) (single.trans (once.trans ?_))
  · simp
  · have nothing : outlet.share route ([] : List T) = [] := rfl
    simp only [nothing, true_and, ne_eq, ite_not]

/-! ### The batch -/

section Batch

variable {before' ran' after' : Executor W} {run' : Run} {batch : List T}

/-- Turns of the other nodes leave the outputs alone. -/
theorem serving_others (round : Round prog kind route threads c outlets now start polled final)
    {a b : Executor W} {items : List T} (turns : Turns prog now a b) {later : List Run}
    (runs : b.runs = later ++ a.runs) (others : ∀ r ∈ later, r.node ≠ c)
    (serving : Serving kind c outlets (Outlet.Stamped route polled.epoch items)
      (Outlet.holds route start items) a) :
    Serving kind c outlets (Outlet.Stamped route polled.epoch items) (Outlet.holds route start items) b := by
  refine Turns.induct turns runs others (fun before run ran after _ turn other good => ?_) serving
  exact turn.uncalled (turn.uncalled_of_other other) Serving.lasting (Serving.drops round.routes)
    (Serving.others round.routes) good

/-- What the router does with the batch, if it is not swept. -/
structure Routed (prog : Program W) (kind : RouterKind W K T) (route : T → K)
    (threads : Threads W T) (c : Key) (outlets : List (Outlet K)) (now : CycleTime)
    (start : Key → List T) (source : Node W (List T)) (batch : List T) (polled before : Executor W)
    (run : Run) (after : Executor W) : Prop where
  called : ∃ s ctx, Executor.called c now before = some (s, ctx) ∧
    kind.takes threads s ctx = batch ∧ Path s after
  verdict : run.verdict = .returned .unchanged
  unused : Serving kind c outlets (Outlet.Stamped route polled.epoch []) (Outlet.holds route start []) before
  serving : Serving kind c outlets (Outlet.Stamped route polled.epoch batch)
    (Outlet.holds route start batch) after
  leaves : source.borrow after.world = kind.leaves batch

theorem routed (round : Round prog kind route threads c outlets now start polled final)
    (feeds : prog.Feeds kind source c) (none : polled.runs = [])
    (router : Sole prog now c polled final before run ran after) (unswept : ¬ run.Swept)
    (found : source.borrow before.world = batch) :
    Routed prog kind route threads c outlets now start source batch polled before run after := by
  obtain ⟨first, turn, rest, own, earlier, -⟩ := router
  have unused : Serving kind c outlets (Outlet.Stamped route polled.epoch [])
      (Outlet.holds route start []) before :=
    round.serving_others first (by rw [none, List.append_nil]) earlier round.serving
  cases calls : Executor.called c now before with
  | none =>
    obtain ⟨poisoned | dead, -⟩ := turn.skipped calls own
    · exact absurd (by rw [Run.Swept, poisoned]; rfl) unswept
    · exact absurd (by rw [Run.Swept, dead]; rfl) unswept
  | some call =>
    obtain ⟨s, ctx⟩ := call
    obtain ⟨call, last, ends⟩ := round.called first turn calls
    obtain ⟨depth, abreast⟩ := round.abreastAt first
    have takes : kind.takes threads s ctx = batch := by
      rw [RouterKind.takes_of_source feeds.given, call.world, found]
    have code : CodeRun s last := by
      have run := applyEffects_run prog s (kind.cycleFn route threads s ctx).1
      rwa [ends.applied] at run
    refine ⟨⟨s, ctx, calls, takes, (CodeRun.path code).trans ends.path⟩, ?_, unused, ?_, ?_⟩
    · obtain ⟨control, verdict, returns⟩ := ends.returns
      rw [RouterKind.unchanged_of_source feeds.given round.routes.apart ends.low] at returns
      cases returns
      exact verdict
    · have epoch : before.epoch = polled.epoch := Turns.epoch first
      have served := Serving.call round.routes round.distinct abreast turn.occupant call
        (by rw [epoch]; exact unused)
      rwa [takes, epoch] at served
    · have left : source.borrow ((kind.cycleFn route threads s ctx).1.foldl Effect.onWorld s.world) =
          kind.leaves (source.borrow s.world) :=
        RouterKind.leaves_of_source feeds.given feeds.apart round.routes.apart ends.low
      have answers : Answers kind.cell route s ctx.epoch (kind.takes threads s ctx)
          (kind.cycleFn route threads s ctx) :=
        RouterKind.answers round.routes.apart ends.low
      obtain ⟨-, d, d', effects, -⟩ := answers
      have applied := ends.applied
      rw [effects] at applied left
      have written := applyEffects_plain d'.plain applied
      refine ends.later (fun s => source.borrow s.world = kind.leaves batch)
        (.world fun w => source.borrow w = kind.leaves batch) (feeds.drops _).carry ?_
      rw [written, left, call.world, found]

variable {seeded : Prop} {p : Key} {outlet : Outlet K}

/-- An output runs as often as the router schedules it. -/
theorem length_verdicts (round : Round prog kind route threads c outlets now start polled final)
    (router : Sole prog now c polled final before run ran after)
    (routed : Routed prog kind route threads c outlets now start source batch polled before run after)
    (course : Course prog now [(p, .observe)] outlet.node seeded polled final) (unseeded : ¬ seeded)
    (told : Told [(p, .observe)] outlet.node polled) (unswept : ∀ r ∈ final.runs, r.node = p → ¬ r.Swept)
    (still : ∀ mid, Turns prog now polled mid → Executor.called c now mid = none →
      (polled.inner outlet.node).index ∉ handedIn prog now mid) (member : outlet ∈ outlets)
    (alive : after.Alive outlet.node) :
    (before.verdicts outlet.node).length = 0 ∧
      (final.verdicts outlet.node).length = if outlet.share route batch = [] then 0 else 1 := by
  obtain ⟨s, ctx, calls, takes, path⟩ := routed.called
  obtain ⟨call, -⟩ := round.called router.first router.turn calls
  obtain ⟨depth, abreast⟩ := round.abreastAt router.first
  have living : s.Alive outlet.node := by
    apply path.alive _ alive
    rw [call.inners]
    exact (abreast.outputs outlet member).built
  have unaccepted : ∀ {mid}, Turns prog now polled mid → Turns prog now mid final →
      (polled.inner outlet.node).index ∉ mid.accepted := by
    intro mid turns rest
    refine course.unaccepted_of_observes unseeded told
      (fun kr declared => by rw [List.mem_singleton.mp declared]) turns ?_
    intro r ran kr declared node
    obtain ⟨later, runs⟩ := Turns.runs rest
    rw [List.mem_singleton.mp declared] at node
    exact unswept r (by rw [runs]; exact List.mem_append_right _ ran) node
  -- before the router, in its turn and after it
  obtain ⟨first, turned, count⟩ :=
    Turned.others .start router.first (by rw [course.none, List.append_nil]) router.earlier still
  have hands := round.count_hands router.first router.turn calls routed.unused member living course.present
  obtain ⟨later, runs, others⟩ := router.later
  obtain ⟨last, turned', count'⟩ := (turned.again router.turn.step).others router.rest runs others still
  have begins := (turned.origins course.origins).counted (polled.inner outlet.node).index
  have ends := (turned'.origins course.origins).counted (polled.inner outlet.node).index
  rw [List.count_append, count, hands, takes] at count'
  rw [count, List.count_eq_zero.mpr (unaccepted router.first (.head router.turn.step router.rest))] at begins
  rw [count', List.count_eq_zero.mpr (unaccepted course.turns .refl), course.finished] at ends
  rw [course.length_verdicts router.first, course.length_verdicts course.turns]
  simp only [List.count_nil, Nat.zero_add, Nat.add_zero] at begins ends
  exact ⟨by omega, ends⟩

/-- An output that has got items runs after the router, and broadcasts. -/
theorem speaks (round : Round prog kind route threads c outlets now start polled final)
    (router : Sole prog now c polled final before run ran after)
    (routed : Routed prog kind route threads c outlets now start source batch polled before run after)
    (course : Course prog now [(p, .observe)] outlet.node seeded polled final) (member : outlet ∈ outlets)
    (alive : final.Alive outlet.node) (some : outlet.share route batch ≠ [])
    (unswept : ∀ r ∈ final.runs, r.node = outlet.node → ¬ r.Swept)
    (early : (before.verdicts outlet.node).length = 0)
    (once : (final.verdicts outlet.node).length = 1) :
    final.verdicts outlet.node = [.returned .broadcast] ∧
      [outlet.node, c].Sublist (final.runs.map (·.node)) := by
  rw [verdicts, List.length_map] at early once
  obtain ⟨r, single⟩ := List.length_eq_one_iff.mp once
  have listed : r ∈ final.runs ∧ r.node = outlet.node := by
    have here : r ∈ final.runs.filter fun r => r.node = outlet.node := by
      rw [single]; exact List.mem_cons_self
    simpa using here
  obtain ⟨later, earlier, runs⟩ := List.append_of_mem listed.1
  obtain ⟨before', ran', after', first, -, turn, rest⟩ := Turns.split round.turns course.none runs
  have sole := sole_of_turn first turn rest listed.2 (by rw [once])
  -- its turn comes after that of the router
  have absent : ∀ r ∈ after.runs, r.node ≠ outlet.node := by
    intro r ran node
    rw [router.turn.runs] at ran
    rcases List.mem_cons.mp ran with rfl | old
    · exact round.distinct.router outlet member (node.symm.trans router.own)
    · have none := List.filter_eq_nil_iff.mp (List.eq_nil_of_length_eq_zero early) r old
      simp [node] at none
  have turns := sole.follows (router.first.tail router.turn.step) absent
  obtain ⟨between, runs', others⟩ := router.between turns (.head turn.step rest)
  have serving := round.serving_others turns runs' others routed.serving
  obtain ⟨depth, abreast⟩ := round.abreastAt first
  have living : before'.Alive outlet.node :=
    Path.alive (Turns.path (.head turn.step rest)) (abreast.outputs outlet member).built alive
  have held : (kind.cell.get before'.world).contents outlet.node = outlet.share route batch := by
    rw [serving.contents outlet member living, Outlet.holds, if_neg some]
  have answer : ∀ control, r.verdict = .returned control → control = .broadcast := by
    intro control verdict
    obtain ⟨s, -, cycled⟩ := turn.cycled
    obtain ⟨s', world, -, -, answers, -⟩ := returned_graphCycle cycled verdict
    replace world : s'.world = before'.world := world
    rw [listed.2, (round.routes.outputs outlet member).1, output, world, held] at answers
    have full : (outlet.share route batch).isEmpty = false := by simpa using some
    rw [full] at answers
    exact (Outcome.ret.inj answers).symm
  constructor
  · rw [sole.verdicts]
    rcases course.control_of_run listed.1 (unswept r listed.1 listed.2) with unchanged | broadcast
    · cases answer _ unchanged
    · rw [broadcast]
  · obtain ⟨latest, all, -⟩ := sole.later
    rw [all, turn.runs, runs', router.turn.runs]
    simp only [List.map_append, List.map_cons, listed.2, router.own]
    refine List.Sublist.trans ?_ (List.sublist_append_right _ _)
    apply List.Sublist.cons_cons
    rw [List.singleton_sublist]
    simp

end Batch

end Round

/-! ## A cycle -/

/-- The source broadcasts in the cycle, and `batch` is its data then. -/
def Sends (prog : Program W) (source : Node W (List T)) (batch : List T) (input : CycleInput)
    (ex : Executor W) : Prop :=
  ∃ now polled before run ran after, poll input ex.beginCycle = .ok (some now, polled) ∧
    Turns prog now polled before ∧
    TurnOf prog now before run ran after ∧ run.node = source.key ∧
    run.verdict = .returned .broadcast ∧ source.borrow after.world = batch

theorem Course.late {now : CycleTime} {p : Key} {r : Relationship} {seeded : Prop}
    {polled final before ran after : Executor W} {run : Run}
    (course : Course prog now [(p, r)] c seeded polled final)
    (sender : Sole prog now p polled final before run ran after) :
    ∀ r ∈ after.runs, r.node ≠ c := by
  intro early member own
  have older := course.lineage.older _ (List.mem_singleton_self _)
  rw [sender.turn.runs] at member
  rcases List.mem_cons.mp member with rfl | past
  · exact absurd (sender.own.symm.trans own) (Nat.ne_of_lt older)
  · obtain ⟨later, earlier, split⟩ := List.append_of_mem past
    obtain ⟨latest, runs, -⟩ := sender.later
    rw [sender.turn.runs, split, ← List.cons_append, ← List.append_assoc] at runs
    exact course.parents_first runs own run (by simp) _ (List.mem_singleton_self _) sender.own

section Delivery

variable {batch : List T} {input : CycleInput} {ex last swept : Executor W}

end Delivery

/-- If a cycle does nothing, neither do `n` of them. -/
theorem RouterLife.waits {history : List (Service W K T)} {ex : Executor W} {trace : List Event} {epoch : Nat}
    (life : RouterLife kind route c outlets history (ex.atEpoch epoch trace))
    (bound : epoch < 2 ^ 64) (prog) (threads) (fuel : Nat) (input : CycleInput)
    (routes : prog.Routes kind route threads c outlets)
    (quiet : ∀ epoch trace, Pass prog fuel input (ex.atEpoch epoch trace)
      (ex.atEpoch ((epoch + 1) % 2 ^ 64) (.began :: trace))
      (ex.atEpoch ((epoch + 1) % 2 ^ 64) (.began :: trace))) (n : Nat) :
    ∃ history' trace', RouterLife kind route c outlets history' (ex.atEpoch ((epoch + n) % 2 ^ 64) trace') ∧
      ∀ event ∈ trace', event = .began ∨ event ∈ trace := by
  let p := fun ex => ∃ history, RouterLife kind route c outlets history ex
  have once : ∀ epoch trace, p (ex.atEpoch epoch trace) →
      p (ex.atEpoch ((epoch + 1) % 2 ^ 64) (.began :: trace)) := by
    rintro epoch trace ⟨history, life⟩
    exact ⟨_, life.pass prog threads fuel input routes (quiet epoch trace)⟩
  have begins : p (ex.atEpoch epoch trace) := ⟨history, life⟩
  obtain ⟨trace', ⟨history', life⟩, events⟩ := atEpoch_waits once begins bound n
  exact ⟨history', trace', life, events⟩

/-- A batch has been routed, without an item for the output. -/
def sorted (contents : Key → List Nat) : Executor Desk :=
  { emptyDesk with
    graph :=
      ⟨[some ⟨⟨0, false, false⟩, 1, 0, false⟩, some ⟨⟨1, false, false⟩, 1, 1, false⟩,
      some (.new ⟨2, false, false⟩ 1)],
      [⟨0, 2, .observe⟩, ⟨0, 1, .trigger⟩]⟩
    scheduler := ⟨[[], []], 0, 0⟩
    inners := [⟨0, 0, 1⟩, ⟨1, 1, 0⟩, ⟨2, 1, 0⟩]
    handles := [(.user, 2), (.closure 1, 0), (.user, 1), (.user, 0)]
    world := ⟨[1], ⟨AList.insert 0 ⟨2, 0⟩ ∅, contents⟩⟩ }

end Executor
end Wavelet
