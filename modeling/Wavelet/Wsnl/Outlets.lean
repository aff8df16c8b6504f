import Wavelet.Wsnl.Routing

/-!
# The outputs of a router

The three constructors of routers, and the life of a router with the outputs that `route`
gives. The documentation says that outputs are cleared at the boundaries of cycles. They are
not: an output is cleared when the first item for it arrives, so without one it goes on
holding what it held.
-/

namespace Wavelet

variable {W K T : Type} [DecidableEq K]

section Constructors

variable (cell : Cell W (Router K T)) (source : Node W (List T))

def routerArgs (index : NodeIndex) (order : HashOrder) : BuildArgs where
  index := index
  relationships := [source.triggers]
  order := order
  captures := [source.key]

/-- `Router::new`: the cache is empty. -/
def newRouter (w : W) : W := cell.modify (fun router => { router with cache := ∅ }) w

def routeStreamNode (index : NodeIndex) (order : HashOrder) : List (ExecOp W) :=
  construct (newRouter cell) (routerArgs source index order)

def takeRouteStreamNode (index : NodeIndex) (order : HashOrder) : List (ExecOp W) :=
  construct (newRouter cell) (routerArgs source index order)

end Constructors

/-- A router made by one of the three constructors. -/
inductive RouterKind (W K T : Type) where
  | stream (cell : Cell W (Router K T)) (source : Node W (List T))
  | takeStream (cell : Cell W (Router K T)) (source : Node W (List T))
  | channel (both : Cell W (Router K T × Channel.System T)) (pollLimit : Nat)

/-- What the sending threads do during each call of a cycle function. -/
abbrev Threads (W T : Type) :=
  Executor W → ExecutionContext → Nat → List (Channel.Action T) × List (Channel.Action T)

namespace RouterKind

variable (kind : RouterKind W K T)

def cell : Cell W (Router K T) :=
  match kind with
  | .stream cell _ | .takeStream cell _ => cell
  | .channel both _ => both.fst

/-- `parent` of the router: what its outputs observe. -/
def parent : Option Key :=
  match kind with
  | .stream _ source | .takeStream _ source => some source.key
  | .channel .. => none

def cycleFn (route : T → K) (threads : Threads W T) (ex : Executor W) (ctx : ExecutionContext) :
    List (Effect W) × Outcome :=
  match kind with
  | .stream cell source => routeStream cell route source.data ex ctx
  | .takeStream cell source => takeRouteStream cell route source.data ex ctx
  | .channel both pollLimit => channelRouteStream route both pollLimit (threads ex ctx) ex ctx

/-- The items that a call takes. -/
def takes (threads : Threads W T) (ex : Executor W) (ctx : ExecutionContext) : List T :=
  match kind with
  | .stream _ source | .takeStream _ source => source.borrow ex.world
  | .channel both pollLimit => (both.snd.get ex.world).receives (threads ex ctx) pollLimit

/-- The data of the source is no part of the router's. -/
def Apart : Prop :=
  match kind with
  | .stream .. | .channel .. => True
  | .takeStream cell source => source.data.Apart cell

/-- `ops` is what the constructor does. -/
def Makes (index : NodeIndex) (order : HashOrder) (ops : List (ExecOp W)) : Prop :=
  match kind with
  | .stream cell source => ops = routeStreamNode cell source index order
  | .takeStream cell source => ops = takeRouteStreamNode cell source index order
  | .channel both _ => ∃ capacity, channelRouteStreamNode both capacity index = some ops

/-- One below the parent. -/
def depth (ex : Executor W) : Nat :=
  match kind.parent with
  | none => 0
  | some p => (ex.inner p).depth + 1

theorem answers {kind : RouterKind W K T} (apart : kind.Apart) {route : T → K}
    {threads : Threads W T} {ex : Executor W} {ctx : ExecutionContext}
    (low : (kind.cell.get ex.world).Low ex) :
    Answers kind.cell route ex ctx.epoch (kind.takes threads ex ctx) (kind.cycleFn route threads ex ctx) := by
  cases kind with
  | stream cell source => exact routeStream_answers low
  | takeStream cell source => exact takeRouteStream_answers apart low
  | channel both pollLimit => exact channelRouteStream_answers pollLimit low

/-- No call of a router terminates the cycle. -/
theorem goesOn (kind : RouterKind W K T) (route : T → K) (threads : Threads W T) (ex : Executor W)
    (ctx : ExecutionContext) :
    (kind.cycleFn route threads ex ctx).2 ≠ .ret .terminate := by
  cases kind with
  | stream cell source => exact routeStream_goesOn source.data
  | takeStream cell source => exact takeRouteStream_goesOn source.data
  | channel both pollLimit => exact channelRouteStream_goesOn pollLimit

omit [DecidableEq K] in
/-- What the three constructors have in common. -/
theorem construct_of_makes {kind : RouterKind W K T} {index : NodeIndex} {order : HashOrder}
    {ops : List (ExecOp W)} (makes : kind.Makes index order ops) :
    ∃ init args, ops = construct init args ∧ args.index = index ∧ args.spawned = false ∧
      args.relationships = kind.parent.toList.map (fun p => (p, .trigger)) ∧
      ∀ w, (kind.cell.get (init w)).cache = ∅ := by
  cases kind with
  | stream cell source => exact ⟨_, _, makes, rfl, rfl, rfl, fun w => by simp [newRouter, RouterKind.cell]⟩
  | takeStream cell source =>
    exact ⟨_, _, makes, rfl, rfl, rfl, fun w => by simp [newRouter, RouterKind.cell]⟩
  | channel both pollLimit =>
    obtain ⟨capacity, made⟩ := makes
    obtain ⟨s, -, rfl⟩ := Option.map_eq_some_iff.mp made
    refine ⟨_, { index := index }, rfl, rfl, rfl, rfl, fun w => ?_⟩
    simp [RouterKind.cell, Cell.fst, Cell.modify, Cell.get_put]

end RouterKind

/-- Node `c` of the program is a router, `outlets` are its outputs, and no other code touches
the data of these. -/
structure Program.Routes (prog : Program W) (kind : RouterKind W K T) (route : T → K)
    (threads : Threads W T) (c : Key) (outlets : List (Outlet K)) : Prop where
  cycles : ∀ ex ctx, prog.cycleFn ex ctx c = kind.cycleFn route threads ex ctx
  ends : ∀ ex, prog.onDrop ex c = routerOnDrop kind.cell ex
  outputs : ∀ outlet ∈ outlets, (∀ ex ctx, prog.cycleFn ex ctx outlet.node =
      output kind.cell outlet.node ex) ∧
    ∀ ex, prog.onDrop ex outlet.node = outputOnDrop kind.cell outlet.key
  runs : ∀ ex ctx k, k ≠ c → ∀ effect ∈ (prog.cycleFn ex ctx k).1, ∀ v, effect.Keeps fun w =>
    kind.cell.get w = v
  drops : ∀ ex k, k ≠ c → (∀ outlet ∈ outlets, outlet.node ≠ k) →
    ∀ op ∈ prog.onDrop ex k, ∀ v, op.Keeps fun w => kind.cell.get w = v
  apart : kind.Apart

variable {kind : RouterKind W K T} {route : T → K} {threads : Threads W T} {c : Key}
  {outlets : List (Outlet K)} {prog : Program W}

namespace Executor

/-- The router `c` and its outputs. -/
def Serving (kind : RouterKind W K T) (c : Key) (outlets : List (Outlet K))
    (stamped : Outlet K → RouterEntry → Prop) (held : Outlet K → List T) (ex : Executor W) : Prop :=
  (kind.cell.get ex.world).Serves outlets ex.Alive (ex.Alive c) ex.epoch stamped held

variable {stamped : Outlet K → RouterEntry → Prop} {held : Outlet K → List T}

theorem Serving.lasting : Lasting (Serving kind c outlets stamped held) := by
  intro ex ex' ages same serving
  rw [Serving, same, ages.epoch]
  exact serving.mono (fun outlet _ => ages.alive outlet.node) (ages.alive c)
    (Nat.le_refl _) fun _ _ _ _ stamp => stamp

/-- An update of the data. -/
theorem Serving.update {s : Executor W} {f : W → W}
    (data : (kind.cell.get (f s.world)).Serves outlets s.Alive (s.Alive c) s.epoch stamped held) :
    Serving kind c outlets stamped held { s with world := f s.world } := data

/-- The outputs are nodes of their own. -/
structure Distinct (c : Key) (outlets : List (Outlet K)) : Prop where
  router : ∀ outlet ∈ outlets, outlet.node ≠ c
  outputs : ∀ a ∈ outlets, ∀ b ∈ outlets, a.node = b.node → a = b

/-- An operation that leaves the data of the router alone. -/
theorem Serving.carries {op : HandleOp W} (leaves : ∀ v, op.Keeps fun w => kind.cell.get w = v)
    (ex : Executor W) :
    op.Carries (Serving kind c outlets stamped held) ex := by
  cases op with
  | update f =>
    intro s _ good
    have same : kind.cell.get (f s.world) = kind.cell.get s.world := leaves _ s.world rfl
    apply Serving.update
    rw [same]
    exact good
  | _ => trivial

/-- The destructors take what has died from the cache, and nothing else. -/
theorem Serving.drops (routes : prog.Routes kind route threads c outlets) :
    prog.DropsCarry (Serving kind c outlets stamped held) := by
  intro ex mid k serving alive ages dead op member
  by_cases own : k = c
  · rw [own, routes.ends, routerOnDrop] at member
    rcases List.mem_append.mp member with mark | clear
    · obtain ⟨j, -, rfl⟩ := List.mem_map.mp mark
      trivial
    · rw [List.mem_singleton.mp clear]
      intro s ages' good
      apply Serving.update
      rw [Cell.get_modify]
      exact good.empty fun living => dead (by rw [own]; exact ages'.alive c living)
  · by_cases output : ∃ outlet ∈ outlets, outlet.node = k
    · obtain ⟨outlet, listed, rfl⟩ := output
      rw [(routes.outputs outlet listed).2, outputOnDrop] at member
      rw [List.mem_singleton.mp member]
      intro s ages' good
      apply Serving.update
      rw [Cell.get_modify]
      refine good.erase fun other listed' living running same => ?_
      -- both were cached for one key
      have path := fun k living => ages.alive k (ages'.alive k living)
      obtain ⟨entry, there, node, -⟩ := serving.cached (path c running) outlet listed alive
      obtain ⟨entry', there', node', -⟩ := serving.cached (path c running) other listed' (path _ living)
      rw [same, there] at there'
      cases there'
      rw [← node', node] at living
      exact dead (ages'.alive _ living)
    · exact Serving.carries
        (routes.drops mid k own (fun outlet listed node => output ⟨outlet, listed, node⟩) op member) mid

/-- The other nodes leave the outputs alone. -/
theorem Serving.others (routes : prog.Routes kind route threads c outlets) (k : Key) (other : k ≠ c) :
    prog.RunsCarry (Serving kind c outlets stamped held) k := by
  intro ex i now _ effect member
  have leaves := routes.runs ex _ k other effect member
  cases effect with
  | handle op => exact Serving.carries leaves ex
  | _ => trivial

/-! ## One cycle -/

/-- The state of a node loop with the router and its outputs at one depth. -/
structure Abreast (depth : Nat) (c : Key) (outlets : List (Outlet K)) (ex : Executor W) : Prop where
  wf : ex.scheduler.WF
  queued : ex.Queued
  inPlace : ex.InPlace
  router : Housed depth c ex
  outputs : ∀ outlet ∈ outlets, Housed depth outlet.node ex

omit [DecidableEq K] in
theorem Abreast.path {depth : Nat} {ex ex' : Executor W} (abreast : Abreast depth c outlets ex)
    (path : Path ex ex') (manuals : ex'.All Event.ManualPresent) : Abreast depth c outlets ex' where
  wf := path.schedulerWF abreast.wf
  queued := path.queued manuals abreast.wf abreast.inPlace abreast.queued
  inPlace := path.inPlace abreast.inPlace
  router := path.housed abreast.router
  outputs outlet member := path.housed (abreast.outputs outlet member)

/-- A call of the router that comes to its end, in the state `last`. -/
structure CallEnds (prog : Program W) (kind : RouterKind W K T) (route : T → K)
    (threads : Threads W T) (run : Run) (s : Executor W) (ctx : ExecutionContext)
    (last after : Executor W) : Prop where
  low : (kind.cell.get s.world).Low s
  returns : ∃ control, run.verdict = .returned control ∧ (kind.cycleFn route threads s ctx).2 = .ret control
  applied : s.applyEffects prog (kind.cycleFn route threads s ctx).1 = (true, last)
  path : Path last after
  later : ∀ q : Executor W → Prop, Lasting q → prog.DropsCarry q → q last → q after

/-- The cursor is at the depth of the outputs, so no call of `schedule_node` is refused. -/
theorem CallOf.ends {depth : Nat} {before after s : Executor W} {run : Run} {ctx : ExecutionContext}
    (routes : prog.Routes kind route threads c outlets) (abreast : Abreast depth c outlets before)
    (occupant : before.keyAt run.index = some run.node) (call : CallOf prog c before run after s ctx)
    (entries : ∀ key entry, (kind.cell.get s.world).cache.lookup key = some entry →
      ⟨key, entry.node⟩ ∈ outlets) :
    ∃ last, CallEnds prog kind route threads run s ctx last after := by
  obtain ⟨own, epoch, ages, same, alive, inners, -, queues, cursor, fn, mid, state, ran, path, later⟩ := call
  rw [abreast.inPlace.depthAt occupant, own, abreast.router.deep] at cursor
  have deep : ∀ key entry, (kind.cell.get s.world).cache.lookup key = some entry →
      (s.inner entry.node).depth = depth ∧ depth < s.scheduler.multiQueue.length := by
    intro key entry cached
    have housed := abreast.outputs _ (entries key entry cached)
    rw [inner_of_inners inners, queues]
    exact ⟨housed.deep, housed.queue⟩
  have low : (kind.cell.get s.world).Low s := by
    intro key entry cached _
    rw [cursor, (deep key entry cached).1]
  have answers : Answers kind.cell route s ctx.epoch (kind.takes threads s ctx)
      (kind.cycleFn route threads s ctx) :=
    RouterKind.answers routes.apart low
  obtain ⟨⟨control, returns⟩, d, d', effects, -, data, none, routed⟩ := answers
  obtain ⟨answer, finished, last, answered, applied, ends⟩ := callCycleFn_ok prog ran
  have whole : (⟨ctx.current, ctx.cycleTime, s.epoch⟩ : ExecutionContext) = ctx := by rw [← epoch]
  rw [state, whole, routes.cycles] at answered
  rw [← answered] at applied ends
  have finishes : finished = true := by
    have all : (s.applyEffects prog d'.effects).1 = true := applyEffects_finishes d'.plain fun k listed => by
      rw [← Draft.mem_calls, routed.calls, none, data, List.nil_append] at listed
      obtain ⟨key, entry, cached, -, rfl⟩ := Router.mem_callsFor listed
      rw [(deep key entry cached).1]
      exact (deep key entry cached).2
    rw [effects] at applied
    rwa [applied] at all
  rw [finishes] at applied
  rcases ends with ⟨control', verdict, -, returns', rfl⟩ | ⟨-, -, panics⟩
  · have mutated :
        Path last (if control' = .broadcast then last.setMutEpoch fn.state last.epoch else last) := by
      split
      · exact .single (.code (.mutate ..))
      · exact .refl
    refine ⟨last, low, ⟨control', verdict, returns'⟩, applied, mutated.trans path,
      fun q lasting drops good => ?_⟩
    apply later q lasting drops
    split
    · exact lasting.frame good rfl rfl rfl
    · exact good
  · rw [panics finishes] at returns
    cases returns

/-- A call of the router takes its items. -/
theorem Serving.call {depth : Nat} {before after s : Executor W} {run : Run} {ctx : ExecutionContext}
    (routes : prog.Routes kind route threads c outlets) (distinct : Distinct c outlets)
    (abreast : Abreast depth c outlets before) (occupant : before.keyAt run.index = some run.node)
    (call : CallOf prog c before run after s ctx) {start : Key → List T} {items : List T}
    (serving : Serving kind c outlets (Outlet.Stamped route before.epoch items)
      (Outlet.holds route start items) before) :
    Serving kind c outlets (Outlet.Stamped route before.epoch (items ++ kind.takes threads s ctx))
      (Outlet.holds route start (items ++ kind.takes threads s ctx)) after := by
  have here : Serving kind c outlets (Outlet.Stamped route before.epoch items)
      (Outlet.holds route start items) s :=
    Serving.lasting call.ages call.world serving
  obtain ⟨last, low, -, applied, -, later⟩ :=
    call.ends routes abreast occupant fun key entry cached => (here.entries key entry cached).1
  have answers : Answers kind.cell route s ctx.epoch (kind.takes threads s ctx)
      (kind.cycleFn route threads s ctx) :=
    RouterKind.answers routes.apart low
  obtain ⟨-, d, d', effects, from', data, -, routed⟩ := answers
  rw [effects] at applied
  have written : last.world = d'.world := by
    rw [applyEffects_plain d'.plain applied, Draft.world, routed.start, from']
  have aged : Ages s last := by
    have code := applyEffects_run prog s d'.effects
    rw [applied] at code
    exact .of_code code
  -- the data of the router after the call, while the nodes are those that were alive before it
  have served : Serving kind c outlets (Outlet.Stamped route before.epoch (items ++ kind.takes threads s ctx))
      (Outlet.holds route start (items ++ kind.takes threads s ctx)) { s with world := d'.world } := by
    refine Serving.update (f := fun _ => d'.world) ?_
    rw [routed.world, data, call.epoch]
    rw [Serving, call.ages.epoch] at here
    rw [call.ages.epoch]
    exact here.foldl call.alive distinct.outputs _
  have aged' : Ages { s with world := d'.world } last := ⟨aged.epoch, aged.alive⟩
  exact later _ Serving.lasting (Serving.drops routes) (Serving.lasting aged' written served)

/-- The items that the calls of node `c` in a node loop take. -/
def itemsIn (prog : Program W) (takes : Executor W → ExecutionContext → List T) (c : Key) (now : CycleTime) :
    Nat → Executor W → List T
  | 0, _ => []
  | fuel + 1, ex =>
    match nodeStep prog now ex with
    | .ok (.again next) =>
      ((called c now ex).map fun call => takes call.1 call.2).getD [] ++ itemsIn prog takes c now fuel next
    | _ => []

/-- The items that they take in a cycle. -/
def itemsOf (prog : Program W) (takes : Executor W → ExecutionContext → List T) (c : Key)
    (fuel : Nat) (input : CycleInput) (ex : Executor W) : List T :=
  match poll input ex.beginCycle with
  | .ok (some now, polled) => itemsIn prog takes c now fuel polled
  | _ => []

theorem Serving.turn {depth : Nat} {now : CycleTime} {before after : Executor W}
    (routes : prog.Routes kind route threads c outlets) (distinct : Distinct c outlets)
    (abreast : Abreast depth c outlets before) (step : nodeStep prog now before = .ok (.again after))
    {start : Key → List T} {items : List T} {epoch : Nat} (current : epoch = before.epoch)
    (serving : Serving kind c outlets (Outlet.Stamped route epoch items)
      (Outlet.holds route start items) before) :
    let more := ((called c now before).map fun call => kind.takes threads call.1 call.2).getD []
    Serving kind c outlets (Outlet.Stamped route epoch (items ++ more))
      (Outlet.holds route start (items ++ more)) after := by
  obtain ⟨run, ran, turn⟩ := turnOf_again step
  cases calls : called c now before with
  | none =>
    simp only [Option.map_none, Option.getD_none, List.append_nil]
    exact turn.uncalled calls Serving.lasting (Serving.drops routes) (Serving.others routes) serving
  | some call =>
    subst current
    have called := turn.call calls abreast.router abreast.wf abreast.queued
    exact Serving.call routes distinct abreast turn.occupant called serving

/-- A node that terminates the loop is not the router. -/
theorem Serving.lastTurn {now : CycleTime} {before last : Executor W}
    (routes : prog.Routes kind route threads c outlets)
    (step : nodeStep prog now before = .ok (.terminated last))
    (serving : Serving kind c outlets stamped held before) :
    Serving kind c outlets stamped held last := by
  obtain ⟨run, ran, turn⟩ := lastTurn_terminated step
  have other : run.node ≠ c := by
    intro own
    obtain ⟨s, -, cycled⟩ := turn.cycled
    obtain ⟨s', -, -, -, answers, -⟩ := returned_graphCycle cycled turn.verdict
    rw [own, routes.cycles] at answers
    exact kind.goesOn route threads s' _ answers
  exact turn.carries other Serving.lasting (Serving.drops routes) (Serving.others routes) serving

theorem Serving.loop {depth fuel : Nat} {now : CycleTime} {exit : Exit} {ex last : Executor W}
    (routes : prog.Routes kind route threads c outlets) (distinct : Distinct c outlets)
    (abreast : Abreast depth c outlets ex) (h : nodeLoop prog now fuel ex = .ok (exit, last))
    (manuals : last.All Event.ManualPresent) {start : Key → List T} {items : List T} {epoch : Nat}
    (current : epoch = ex.epoch)
    (serving : Serving kind c outlets (Outlet.Stamped route epoch items)
      (Outlet.holds route start items) ex) :
    Serving kind c outlets (Outlet.Stamped route epoch
      (items ++ itemsIn prog (kind.takes threads) c now fuel ex))
      (Outlet.holds route start (items ++ itemsIn prog (kind.takes threads) c now fuel ex)) last := by
  induction fuel generalizing ex items with
  | zero => cases h
  | succ fuel ih =>
    rw [nodeLoop] at h
    obtain ⟨turn, step, rest⟩ := Steps.bind_ok' h
    rw [itemsIn, step]
    cases turn with
    | finished ended =>
      cases rest
      obtain ⟨s, -, rfl⟩ := nodeStep_finished prog step
      simp only [List.append_nil]
      exact Serving.lasting.frame serving rfl rfl rfl
    | terminated ended =>
      cases rest
      simp only [List.append_nil]
      exact Serving.lastTurn routes step serving
    | again next =>
      have path : Path ex next := nodeStep_path (.inr (.inr step))
      have rest' : Loop prog now next exit last := loop_of_nodeLoop prog rest
      have manuals' := Path.all rest'.path manuals
      have turned := Serving.turn routes distinct abreast step current serving
      have epochs : epoch = next.epoch := by
        obtain ⟨run, ran, turn⟩ := turnOf_again step
        rw [turn.epoch]
        exact current
      have later := ih (abreast.path path manuals') rest epochs turned
      rwa [List.append_assoc] at later

/-- What is known of a router and its outputs between two cycles. -/
structure Stands (kind : RouterKind W K T) (c : Key) (outlets : List (Outlet K)) (ex : Executor W) :
    Prop where
  lived : ex.Lived
  parent : ∀ p ∈ kind.parent, p < ex.inners.length
  router : Housed (kind.depth ex) c ex
  outputs : ∀ outlet ∈ outlets, Housed (kind.depth ex) outlet.node ex
  distinct : Distinct c outlets

omit [DecidableEq K] in
theorem Path.routerDepth {ex ex' : Executor W} (path : Path ex ex')
    (built : ∀ p ∈ kind.parent, p < ex.inners.length) :
    kind.depth ex' = kind.depth ex := by
  unfold RouterKind.depth
  cases parent : kind.parent with
  | none => rfl
  | some p => exact congrArg (· + 1) (path.depth (built p parent))

omit [DecidableEq K] in
theorem Stands.path {ex ex' : Executor W} (stands : Stands kind c outlets ex) (path : Path ex ex')
    (lived : ex'.Lived) :
    Stands kind c outlets ex' := by
  have depth := path.routerDepth stands.parent
  constructor
  case lived => exact lived
  case parent => exact fun p parent => (Path.seated path (stands.parent p parent)).built
  case router =>
    rw [depth]
    exact path.housed stands.router
  case outputs =>
    intro outlet member
    rw [depth]
    exact path.housed (stands.outputs outlet member)
  case distinct => exact stands.distinct

omit [DecidableEq K] in
theorem Stands.abreast {input : CycleInput} {now : CycleTime} {ex polled : Executor W}
    (stands : Stands kind c outlets ex) (polls : poll input ex.beginCycle = .ok (some now, polled))
    (manuals : polled.All Event.ManualPresent) :
    Abreast (kind.depth ex) c outlets polled := by
  have begun : Path ex polled := .head .begin (poll_path polls)
  constructor
  case wf => exact begun.schedulerWF stands.lived.wf
  case queued =>
    exact begun.queued manuals stands.lived.wf stands.lived.inPlace
      (stands.lived.queued (Path.all begun manuals))
  case inPlace => exact begun.inPlace stands.lived.inPlace
  case router => exact begun.housed stands.router
  case outputs => exact fun outlet member => begun.housed (stands.outputs outlet member)

/-- In a new epoch the router has taken nothing yet. -/
theorem Serving.begins {input : CycleInput} {t : Option CycleTime} {ex polled : Executor W}
    (stands : Stands kind c outlets ex) (few : ex.cycles + 1 < 2 ^ 64)
    (polls : poll input ex.beginCycle = .ok (t, polled))
    (serving : Serving kind c outlets (fun _ _ => True) held ex) :
    polled.epoch = ex.epoch + 1 ∧ Serving kind c outlets (Outlet.Stamped route (ex.epoch + 1) [])
      (Outlet.holds route (kind.cell.get ex.world).contents []) polled := by
  have epoch := epoch_begin (stands.lived.stamped (by omega)) few
  refine ⟨by rw [(Steady.of_poll polls).epoch, epoch], poll_carries Serving.lasting polls ?_⟩
  constructor
  case entries =>
    intro key entry there
    rw [epoch]
    exact ⟨(serving.entries key entry there).1, Nat.le_succ_of_le (serving.entries key entry there).2⟩
  case cached =>
    intro running outlet member living
    obtain ⟨entry, there, node, -⟩ := serving.cached running outlet member living
    refine ⟨entry, there, node, ?_⟩
    have old := (serving.entries _ _ there).2
    simp only [Outlet.Stamped, Outlet.share, List.filter_nil, ne_eq, not_true_eq_false, iff_false]
    omega
  case contents =>
    intro outlet member living
    rfl

/-- The node loop of a cycle, whatever it returns: each output that is alive at the end holds
its share of what the router has taken, or what it held before if its share is empty. -/
theorem Serving.nodes {fuel : Nat} {input : CycleInput} {exit : Exit} {ex last : Executor W}
    (routes : prog.Routes kind route threads c outlets) (stands : Stands kind c outlets ex)
    (nodes : runNodes prog fuel input ex = .ok (exit, last)) (few : ex.cycles + 1 < 2 ^ 64)
    (manuals : last.All Event.ManualPresent)
    (serving : Serving kind c outlets (fun _ _ => True) held ex) :
    Serving kind c outlets (fun _ _ => True)
      (Outlet.holds route (kind.cell.get ex.world).contents
      (itemsOf prog (kind.takes threads) c fuel input ex)) last := by
  unfold runNodes at nodes
  obtain ⟨⟨time, polled⟩, polls, looped⟩ := Steps.bind_ok' nodes
  obtain ⟨epoch, start⟩ := serving.begins stands few polls
  have forget : ∀ {stamped : Outlet K → RouterEntry → Prop} {held}, Serving kind c outlets stamped held last →
      Serving kind c outlets (fun _ _ => True) held last :=
    fun good => good.mono (fun _ _ living => living) id (Nat.le_refl _) fun _ _ _ _ _ => trivial
  rw [itemsOf, polls]
  cases time with
  | none =>
    cases looped
    exact forget start
  | some now =>
    have loop : Path polled last := (loop_of_nodeLoop prog looped).path
    have abreast := stands.abreast polls (Path.all loop manuals)
    exact forget (Serving.loop routes stands.distinct abreast looped manuals epoch.symm start)

theorem Serving.pass {fuel : Nat} {input : CycleInput} {ex last swept : Executor W}
    (routes : prog.Routes kind route threads c outlets) (stands : Stands kind c outlets ex)
    (pass : Pass prog fuel input ex last swept) (few : ex.cycles + 1 < 2 ^ 64)
    (manuals : last.All Event.ManualPresent) (serving : Serving kind c outlets (fun _ _ => True) held ex) :
    Serving kind c outlets (fun _ _ => True)
      (Outlet.holds route (kind.cell.get ex.world).contents
      (itemsOf prog (kind.takes threads) c fuel input ex)) swept :=
  sweepLoop_carries Serving.lasting (Serving.drops routes) pass.sweeps
    (serving.nodes routes stands pass.nodes few manuals)

/-! ## Between two cycles -/

/-- A build brings no output back to life. -/
theorem Serving.build {args : BuildArgs} {ex ex' : Executor W} (stands : Stands kind c outlets ex)
    (h : ex.build args = .ok ex') (serving : Serving kind c outlets stamped held ex) :
    Serving kind c outlets stamped held ex' := by
  have path := build_path h
  obtain ⟨depth, graph, handles, -, -, -, rfl, -⟩ := build_ok h
  apply serving.mono
  · exact fun outlet member => path.alive (stands.outputs outlet member).built
  · exact path.alive stands.router.built
  · exact Nat.le_refl _
  · exact fun _ _ _ _ stamp => stamp

/-- An operation that leaves the data of the outputs alone. -/
theorem Serving.op {op : ExecOp W} {ex ex' : Executor W} (routes : prog.Routes kind route threads c outlets)
    (stands : Stands kind c outlets ex) (leaves : op.Leaves kind.cell) (h : ex.execOp prog op = .ok ex')
    (serving : Serving kind c outlets stamped held ex) : Serving kind c outlets stamped held ex' := by
  cases op with
  | handle op =>
    cases h
    exact handleOp_carries Serving.lasting (Serving.drops routes) (Serving.carries leaves ex)
      (.refl ex) serving
  | driver op =>
    simp only [execOp] at h
    split at h
    · rename_i next applied
      cases h
      exact Serving.lasting (.of_code (driverOp_run applied)) (world_driverOp applied) serving
    · cases h
  | build args => exact serving.build stands h

omit [DecidableEq K] in
/-- A node whose only parent is that of the outputs is at their depth. -/
theorem depth_of_parent {args : BuildArgs} {r : Relationship} {depth : Nat} {ex : Executor W}
    (parent : args.relationships = kind.parent.toList.map fun p => (p, r))
    (deep : childDepth (ex.parents args) = some depth) :
    depth = kind.depth ex := by
  rw [parents, parent] at deep
  unfold RouterKind.depth
  cases given : kind.parent with
  | none =>
    rw [given] at deep
    cases deep
    rfl
  | some p =>
    simp only [given, Option.toList_some, List.map_cons, List.map_nil, List.foldl_cons,
      List.foldl_nil, addRelationship, childDepth] at deep
    obtain ⟨-, same⟩ := Option.ite_none_right_eq_some.mp deep
    exact (Option.some.inj same).symm

omit [DecidableEq K] in
theorem housed_of_build {args : BuildArgs} {r : Relationship} {ex built : Executor W} (inPlace : ex.InPlace)
    (parent : args.relationships = kind.parent.toList.map fun p => (p, r)) (shared : args.spawned = false)
    (builds : ex.build args = .ok built) : Housed (kind.depth ex) ex.inners.length built := by
  obtain ⟨depth, graph, handles, -, deep, edges, -, path⟩ := build_ok builds
  obtain rfl := depth_of_parent parent deep
  exact path.housed (Housed.start inPlace shared edges)

/-- The outputs after a call of `route`. -/
def outletsAfter (kind : RouterKind W K T) (key : K) (ex : Executor W) (outlets : List (Outlet K)) :
    List (Outlet K) :=
  match (kind.cell.get ex.world).cache.lookup key with
  | some entry => if ex.Alive entry.node then outlets else outlets ++ [⟨key, ex.inners.length⟩]
  | none => outlets ++ [⟨key, ex.inners.length⟩]

/-- A call of `route` gives an output that is there, or makes one. -/
theorem route_cases (outlets : List (Outlet K)) {key : K} {index : NodeIndex} {ex ex' : Executor W}
    (h : ex.execOps prog (Router.route kind.cell kind.parent key index ex) = .ok ex') :
    (∃ k, outletsAfter kind key ex outlets = outlets ∧ ex.execOp prog (.handle (.clone k .user)) = .ok ex') ∨
    (∃ args built, outletsAfter kind key ex outlets = outlets ++ [⟨key, ex.inners.length⟩] ∧
      (∀ entry, (kind.cell.get ex.world).cache.lookup key = some entry → ¬ ex.Alive entry.node) ∧
      args.relationships = kind.parent.toList.map (fun p => (p, .observe)) ∧ args.spawned = false ∧
      ex.build args = .ok built ∧
      ex' = { built with world := kind.cell.modify (Router.clear key ex.inners.length 0) built.world }) := by
  have fresh : ∀ {args : BuildArgs}, ex.execOps prog [.build args,
      .handle (.update (kind.cell.modify (Router.clear key ex.inners.length 0)))] = .ok ex' →
      ∃ built, ex.build args = .ok built ∧
      ex' = { built with world := kind.cell.modify (Router.clear key ex.inners.length 0) built.world } := by
    intro args ops
    rw [execOps, List.foldlM_cons] at ops
    obtain ⟨built, builds, rest⟩ := Steps.bind_ok' ops
    cases rest
    exact ⟨built, builds, rfl⟩
  unfold Router.route at h
  dsimp only at h
  split at h
  · rename_i entry cached
    have after : outletsAfter kind key ex outlets =
        if ex.Alive entry.node then outlets else outlets ++ [⟨key, ex.inners.length⟩] := by
      simp only [outletsAfter, cached]
    rw [after]
    split at h
    · rename_i alive
      rw [if_pos alive]
      rw [execOps, List.foldlM_cons] at h
      obtain ⟨cloned, clones, rest⟩ := Steps.bind_ok' h
      cases rest
      exact .inl ⟨_, rfl, clones⟩
    · rename_i dead
      rw [if_neg dead]
      obtain ⟨built, builds, rfl⟩ := fresh h
      refine .inr ⟨_, built, rfl, fun entry' same => ?_, rfl, rfl, builds, rfl⟩
      rw [cached] at same
      cases same
      exact dead
  · rename_i uncached
    have after : outletsAfter kind key ex outlets = outlets ++ [⟨key, ex.inners.length⟩] := by
      simp only [outletsAfter, uncached]
    obtain ⟨built, builds, rfl⟩ := fresh h
    refine .inr ⟨_, built, after, fun entry there => ?_, rfl, rfl, builds, rfl⟩
    rw [uncached] at there
    cases there

/-! ## The life of a router -/

/-- A cycle as a router sees it: its outputs and the state before it, and the items that it
took. -/
structure Service (W K T : Type) where
  outlets : List (Outlet K)
  before : Executor W
  items : List T

/-- The life of a router `c`: it is made, then come operations that leave its outputs alone,
calls of `route`, deferred subgraphs and cycles, whatever they return. The cycles are
recorded, oldest first. -/
inductive RouterLife (kind : RouterKind W K T) (route : T → K) (c : Key) :
    List (Outlet K) → List (Service W K T) → Executor W → Prop
  | made (prog : Program W) (threads : Threads W T) (index order ops) {before ex : Executor W} :
      prog.Routes kind route threads c [] →
      kind.Makes index order ops → before.Lived → before.inners.length = c → (∀ p ∈ kind.parent, p < c) →
      before.execOps prog ops = .ok ex → RouterLife kind route c [] [] ex
  | op (prog : Program W) (threads : Threads W T) (op) {outlets history} {ex ex' : Executor W} :
      RouterLife kind route c outlets history ex →
      prog.Routes kind route threads c outlets → op.Leaves kind.cell → ex.execOp prog op = .ok ex' →
      RouterLife kind route c outlets history ex'
  | routed (prog : Program W) (threads : Threads W T) (key index) {outlets history} {ex ex' : Executor W} :
      RouterLife kind route c outlets history ex →
        prog.Routes kind route threads c (outletsAfter kind key ex outlets) → ex.Alive c →
      ex.execOps prog (Router.route kind.cell kind.parent key index ex) = .ok ex' →
      RouterLife kind route c (outletsAfter kind key ex outlets) history ex'
  | opens (tickets) {outlets history} {ex : Executor W} : RouterLife kind route c outlets history ex →
      RouterLife kind route c outlets history { ex with deferredSpawns := tickets }
  | closes (prog : Program W) (threads : Threads W T) (ticket) {outlets history} {ex : Executor W} :
      RouterLife kind route c outlets history ex →
      prog.Routes kind route threads c outlets →
      RouterLife kind route c outlets history (ex.dropOwner prog (.spawn ticket))
  | pass (prog : Program W) (threads : Threads W T)
      (fuel input) {outlets history} {ex last swept : Executor W} :
      RouterLife kind route c outlets history ex → prog.Routes kind route threads c outlets →
        Pass prog fuel input ex last swept →
      RouterLife kind route c outlets
      (history ++ [⟨outlets, ex, itemsOf prog (kind.takes threads) c fuel input ex⟩]) swept
  | stopped (prog : Program W) (threads : Threads W T)
      (fuel input exit) {outlets history} {ex ex' : Executor W} :
      RouterLife kind route c outlets history ex → prog.Routes kind route threads c outlets →
        exit ≠ .running →
      runNodes prog fuel input ex = .ok (exit, ex') →
      RouterLife kind route c outlets
      (history ++ [⟨outlets, ex, itemsOf prog (kind.takes threads) c fuel input ex⟩]) ex'

/-- A new output has the depth of the others. -/
theorem Stands.routed {key : K} {index : NodeIndex} {ex ex' : Executor W} (stands : Stands kind c outlets ex)
    (h : ex.execOps prog (Router.route kind.cell kind.parent key index ex) = .ok ex') :
    Stands kind c (outletsAfter kind key ex outlets) ex' := by
  have path := execOps_path prog h
  obtain ⟨lived, parent, router, outputs, -⟩ := stands.path path (stands.lived.ops h)
  have depth := path.routerDepth stands.parent
  rcases route_cases outlets h with ⟨k, same, -⟩ | ⟨args, built, after, -, observes, shared, builds, rfl⟩
  · rw [same]
    exact ⟨lived, parent, router, outputs, stands.distinct⟩
  · rw [after]
    have house := housed_of_build stands.lived.inPlace observes shared builds
    have old : ∀ outlet ∈ outlets, outlet.node ≠ ex.inners.length :=
      fun outlet member => Nat.ne_of_lt (stands.outputs outlet member).built
    refine ⟨lived, parent, router, ?_, ?_, ?_⟩
    · intro outlet member
      rcases List.mem_append.mp member with known | new
      · exact outputs outlet known
      · rw [List.mem_singleton.mp new, depth]
        exact ⟨house.built, house.deep, house.queue, house.shared⟩
    · intro outlet member
      rcases List.mem_append.mp member with known | new
      · exact stands.distinct.router outlet known
      · rw [List.mem_singleton.mp new]
        exact (Nat.ne_of_lt stands.router.built).symm
    · intro a first b second same
      rcases List.mem_append.mp first with known | new
      · rcases List.mem_append.mp second with known' | new'
        · exact stands.distinct.outputs a known b known' same
        · rw [List.mem_singleton.mp new'] at same
          exact absurd same (old a known)
      · rw [List.mem_singleton.mp new] at same ⊢
        rcases List.mem_append.mp second with known' | new'
        · exact absurd same.symm (old b known')
        · exact (List.mem_singleton.mp new').symm

theorem RouterLife.stands {history : List (Service W K T)} {ex : Executor W}
    (life : RouterLife kind route c outlets history ex) :
    Stands kind c outlets ex := by
  induction life with
  | made prog threads index order ops routes makes lived next known made =>
    obtain ⟨init, args, rfl, -, shared, parent, -⟩ := RouterKind.construct_of_makes makes
    have after := lived.ops made
    rw [construct, execOps, List.foldlM_cons] at made
    obtain ⟨set, first, rest⟩ := Steps.bind_ok' made
    rw [List.foldlM_cons] at rest
    obtain ⟨built, builds, moves⟩ := Steps.bind_ok' rest
    have setting := lived.op first
    have house := housed_of_build setting.inPlace parent shared builds
    cases first
    subst next
    have path := execOps_path prog moves
    have whole := (build_path builds).trans path
    constructor
    case lived => exact after
    case parent => exact fun p here => (Path.seated whole (known p here)).built
    case router =>
      rw [Path.routerDepth whole known]
      exact path.housed house
    case outputs => exact fun _ none => by cases none
    case distinct => exact ⟨(fun _ none => by cases none), fun _ none => by cases none⟩
  | op prog threads op life routes leaves applied ih =>
    exact ih.path (execOp_path prog applied) (ih.lived.op applied)
  | routed prog threads key index life routes alive applied ih => exact ih.routed applied
  | opens tickets life ih => exact ih.path (.single (.code (.spawns tickets _))) (ih.lived.opens tickets)
  | closes prog threads ticket life routes ih =>
    exact ih.path (CodeRun.path (dropOwner_run prog ..).code) (ih.lived.closes prog ticket)
  | pass prog threads fuel input life routes pass ih =>
    obtain ⟨first, second⟩ := pass.path ih.lived.wf
    exact ih.path (first.trans second) (ih.lived.pass pass)
  | stopped prog threads fuel input exit life routes no nodes ih =>
    exact ih.path (runNodes_path prog nodes) (ih.lived.stopped no nodes)

/-- What an output holds after a cycle; one that is made later is empty. -/
def Service.holds (kind : RouterKind W K T) (route : T → K) (service : Service W K T)
    (outlet : Outlet K) : List T :=
  if outlet ∈ service.outlets then outlet.holds route
    (kind.cell.get service.before.world).contents service.items else []

/-- The outputs hold what the last cycle has left them with. -/
structure Holding (kind : RouterKind W K T) (route : T → K) (c : Key) (outlets : List (Outlet K))
    (history : List (Service W K T)) (held : Outlet K → List T) (ex : Executor W) : Prop where
  serving : Serving kind c outlets (fun _ _ => True) held ex
  known : ∀ service ∈ history.getLast?, service.outlets ⊆ outlets
  last : ∀ service ∈ history.getLast?, ∀ outlet ∈ outlets, held outlet = service.holds kind route outlet

theorem Holding.routed {history : List (Service W K T)} {key : K} {index : NodeIndex} {ex ex' : Executor W}
    (holds : Holding kind route c outlets history held ex) (stands : Stands kind c outlets ex)
    (alive : ex.Alive c)
    (routes : prog.Routes kind route threads c (outletsAfter kind key ex outlets))
    (h : ex.execOps prog (Router.route kind.cell kind.parent key index ex) = .ok ex') :
    ∃ held', Holding kind route c (outletsAfter kind key ex outlets) history held' ex' := by
  rcases route_cases outlets h with ⟨k, same, cloned⟩ | ⟨args, built, after, dead, -, -, builds, rfl⟩
  · rw [same] at routes ⊢
    have leaves : (ExecOp.handle (.clone k .user) : ExecOp W).Leaves kind.cell := fun _ => trivial
    exact ⟨held, holds.serving.op routes stands leaves cloned, holds.known, holds.last⟩
  · rw [after]
    have serving := holds.serving.build stands builds
    have path := build_path builds
    have old : ∀ outlet ∈ outlets, outlet.node ≠ ex.inners.length :=
      fun outlet member => Nat.ne_of_lt (stands.outputs outlet member).built
    refine ⟨fun outlet => if outlet.node = ex.inners.length then [] else held outlet, ?_, ?_, ?_⟩
    · apply Serving.update
      rw [Cell.get_modify]
      refine serving.clear (fun _ outlet member living same => ?_) old
      -- it was cached for the key before the build
      have lived := path.alive (stands.outputs outlet member).built living
      obtain ⟨entry, there, node, -⟩ := holds.serving.cached alive outlet member lived
      rw [same] at there
      rw [← node] at lived
      exact dead entry there lived
    · exact fun service member => List.subset_append_of_subset_left _ (holds.known service member)
    · intro service member outlet listed
      rcases List.mem_append.mp listed with known | new
      · rw [if_neg (old outlet known)]
        exact holds.last service member outlet known
      · have unknown : outlet ∉ service.outlets := by
          intro known
          rw [List.mem_singleton.mp new] at known
          exact old _ (holds.known service member known) rfl
        rw [List.mem_singleton.mp new, if_pos rfl] at *
        rw [Service.holds, if_neg unknown]

theorem Holding.of_serving {history : List (Service W K T)} {ex ex' : Executor W}
    (holds : Holding kind route c outlets history held ex)
    (serving : Serving kind c outlets (fun _ _ => True) held ex') :
    Holding kind route c outlets history held ex' :=
  ⟨serving, holds.known, holds.last⟩

/-- A cycle leaves the outputs with what it has brought them. -/
theorem Holding.serviced {service : Service W K T} {history : List (Service W K T)}
    {ex : Executor W} (known : service.outlets = outlets)
    (serving : Serving kind c outlets (fun _ _ => True)
      (Outlet.holds route (kind.cell.get service.before.world).contents service.items) ex) :
    ∃ held, Holding kind route c outlets (history ++ [service]) held ex := by
  refine ⟨_, serving, fun last member => ?_, fun last member outlet listed => ?_⟩
  · rw [List.getLast?_concat] at member
    cases member
    rw [known]
    exact fun _ listed => listed
  · rw [List.getLast?_concat] at member
    cases member
    rw [Service.holds, known, if_pos listed]

theorem RouterLife.holding {history : List (Service W K T)} {ex : Executor W}
    (life : RouterLife kind route c outlets history ex) (few : ex.cycles < 2 ^ 64)
    (manuals : ex.All Event.ManualPresent) : ∃ held, Holding kind route c outlets history held ex := by
  induction life with
  | @made prog threads index order ops before ex routes makes lived next known made =>
    obtain ⟨init, args, rfl, -, -, parent, empty⟩ := RouterKind.construct_of_makes makes
    have constructed : Built (fun _ => True) prog init args c before ex := by
      refine ⟨lived, next, fun kr declared => ?_, made⟩
      rw [parent] at declared
      obtain ⟨p, given, rfl⟩ := List.mem_map.mp declared
      exact known p (Option.mem_toList.mp given)
    have cleared : (kind.cell.get ex.world).cache = ∅ := by
      refine constructed.world (p := fun w => (kind.cell.get w).cache = ∅) (fun s k op member => ?_) (empty _)
      by_cases own : k = c
      · rw [own, routes.ends, routerOnDrop] at member
        rcases List.mem_append.mp member with mark | clear
        · obtain ⟨j, -, rfl⟩ := List.mem_map.mp mark
          trivial
        · rw [List.mem_singleton.mp clear]
          intro w _
          rw [Cell.get_modify]
      · have leaves := routes.drops s k own (fun _ none => by cases none) op member
        exact HandleOp.keeps_of_left leaves fun w w' same empty => by rw [same, empty]
    refine ⟨fun _ => [], ?_, (fun _ none => by cases none), fun _ none => by cases none⟩
    constructor
    case entries =>
      intro key entry there
      rw [cleared] at there
      cases there
    case cached => exact fun _ _ none => by cases none
    case contents => exact fun _ none => by cases none
  | @op prog threads op outlets history ex ex' life routes leaves applied ih =>
    have path := execOp_path prog applied
    obtain ⟨held, holds⟩ := ih (Nat.lt_of_le_of_lt (Path.cycles_le path) few) (Path.all path manuals)
    exact ⟨held, holds.of_serving (holds.serving.op routes life.stands leaves applied)⟩
  | @routed prog threads key index outlets history ex ex' life routes alive applied ih =>
    have path := execOps_path prog applied
    obtain ⟨held, holds⟩ := ih (Nat.lt_of_le_of_lt (Path.cycles_le path) few) (Path.all path manuals)
    exact holds.routed life.stands alive routes applied
  | opens tickets life ih =>
    obtain ⟨held, holds⟩ := ih few manuals
    exact ⟨held, holds.of_serving (Serving.lasting.frame holds.serving rfl rfl rfl)⟩
  | @closes prog threads ticket outlets history ex life routes ih =>
    have path := CodeRun.path (dropOwner_run prog ex (.spawn ticket)).code
    obtain ⟨held, holds⟩ := ih (Nat.lt_of_le_of_lt (Path.cycles_le path) few) (Path.all path manuals)
    exact ⟨held, holds.of_serving (dropOwner_carries Serving.lasting (Serving.drops routes) _ holds.serving)⟩
  | @pass prog threads fuel input outlets history ex last swept life routes passes ih =>
    have stands := life.stands
    obtain ⟨first, second⟩ := passes.path stands.lived.wf
    have fewer := passes.cycles_lt stands.lived.wf few
    obtain ⟨held, holds⟩ := ih (by omega) (Path.all (first.trans second) manuals)
    exact Holding.serviced rfl (holds.serving.pass routes stands passes fewer (Path.all second manuals))
  | @stopped prog threads fuel input exit outlets history ex ex' life routes no nodes ih =>
    have counted := runNodes_counted nodes
    obtain ⟨held, holds⟩ := ih (by omega) (Path.all (runNodes_path prog nodes) manuals)
    have fewer : ex.cycles + 1 < 2 ^ 64 := by omega
    exact Holding.serviced rfl (holds.serving.nodes routes life.stands nodes fewer manuals)

/-- In a cycle that begins with nothing in the output, or in which the router takes an item
for it, the output is up to date. -/
def Service.Feeds (kind : RouterKind W K T) (route : T → K) (service : Service W K T)
    (outlet : Outlet K) : Prop :=
  outlet ∈ service.outlets → (kind.cell.get service.before.world).contents outlet.node = [] ∨
    ∃ item ∈ service.items, route item = outlet.key

/-- Whatever stands in the output went to it in this cycle. -/
def Recent (kind : RouterKind W K T) (route : T → K) (service : Service W K T) (outlet : Outlet K)
    (ex : Executor W) : Prop :=
  ∀ item ∈ (kind.cell.get ex.world).contents outlet.node, item ∈ service.items ∧ route item = outlet.key

/-- After every cycle of a router, an output that is alive holds nothing but items of that
cycle exactly if it was empty before or has got one. -/
theorem outputs_fresh_iff_fed {history : List (Service W K T)} {service : Service W K T} {ex : Executor W}
    (life : RouterLife kind route c outlets (history ++ [service]) ex) (few : ex.cycles < 2 ^ 64)
    (manuals : ex.All Event.ManualPresent) :
    ∀ outlet ∈ outlets, ex.Alive outlet.node →
      (Recent kind route service outlet ex ↔ service.Feeds kind route outlet) := by
  obtain ⟨held, serving, -, last⟩ := life.holding few manuals
  intro outlet member alive
  have contents := serving.contents outlet member alive
  rw [last service List.getLast?_concat outlet member, Service.holds] at contents
  rw [Recent, contents, Service.Feeds]
  by_cases listed : outlet ∈ service.outlets
  · have items : ∀ item, item ∈ outlet.share route service.items ↔ item ∈ service.items ∧
        route item = outlet.key := by
      intro item
      simp [Outlet.share]
    rw [if_pos listed, Outlet.holds]
    by_cases none : outlet.share route service.items = []
    · rw [if_pos none]
      simp only [none, List.not_mem_nil, false_iff, not_and] at items
      constructor
      · intro fresh _
        left
        exact List.eq_nil_iff_forall_not_mem.mpr fun item held =>
          items item (fresh item held).1 (fresh item held).2
      · intro fed item held
        rcases fed listed with empty | ⟨other, taken, same⟩
        · rw [empty] at held
          cases held
        · exact absurd same (items other taken)
    · rw [if_neg none]
      obtain ⟨item, got⟩ := List.exists_mem_of_ne_nil _ none
      exact ⟨fun _ _ => .inr ⟨item, (items item).mp got⟩, fun _ item held => (items item).mp held⟩
  · rw [if_neg listed]
    exact ⟨fun _ known => absurd known listed, fun _ _ none => by cases none⟩

/-- A batch, and a router for it. -/
structure Desk where
  batch : List Nat
  router : Router Nat Nat

def batchCell : Cell Desk (List Nat) :=
  ⟨Desk.batch, fun batch desk => { desk with batch := batch }, fun _ _ => rfl⟩

def routerCell : Cell Desk (Router Nat Nat) :=
  ⟨Desk.router, fun router desk => { desk with router := router }, fun _ _ => rfl⟩

def parity (n : Nat) : Nat := n % 2

def sorter : RouterKind Desk Nat Nat := .stream routerCell ⟨0, batchCell⟩

/-- In each cycle the source has one number, and node `c` routes it by its parity. Another node
0 schedules node 2, and node `c + 2` terminates the cycle. -/
def sorting (source c : Key) (outlets : List (Outlet Nat)) : Program Desk where
  cycleFn ex ctx k :=
    if k = c then routeStream routerCell parity batchCell ex ctx
    else if k = source then ([.handle (.update (batchCell.put [ctx.epoch]))], .ret .broadcast)
    else if k = 0 then ([.scheduleNode 2], .ret .broadcast)
    else if k = c + 2 then ([], .ret .terminate)
    else output routerCell k ex
  onDrop ex k :=
    if k = c then routerOnDrop routerCell ex
    else match outlets.find? fun outlet => outlet.node = k with
      | some outlet => outputOnDrop routerCell outlet.key
      | none => []
  spawnFn _ _ := []

theorem sorting_routes {source c : Key} {outlets : List (Outlet Nat)} (below : source < c)
    (distinct : ∀ outlet ∈ outlets, c < outlet.node ∧ outlet.node ≠ c + 2 ∧
      outlets.find? (fun other => other.node = outlet.node) = some outlet)
    (threads : Threads Desk Nat) :
    (sorting source c outlets).Routes (.stream routerCell ⟨source, batchCell⟩) parity threads c outlets := by
  constructor
  case cycles => exact fun _ _ => if_pos rfl
  case ends => exact fun _ => if_pos rfl
  case outputs =>
    intro outlet member
    obtain ⟨above, other, found⟩ := distinct outlet member
    have past : source < outlet.node := Nat.lt_trans below above
    constructor
    · intro ex ctx
      simp only [sorting, if_neg (Nat.ne_of_gt above), if_neg (Nat.ne_of_gt past),
        if_neg (Nat.ne_of_gt (Nat.zero_lt_of_lt past)), if_neg other]
      rfl
    · intro ex
      simp only [sorting, if_neg (Nat.ne_of_gt above), found]
      rfl
  case runs =>
    intro ex ctx k other effect member v
    simp only [sorting, if_neg other] at member
    split at member
    · rw [List.mem_singleton.mp member]
      exact fun w same => same
    · split at member
      · rw [List.mem_singleton.mp member]
        trivial
      · split at member <;> cases member
  case drops =>
    intro ex k other unlisted op member v
    have unfound : outlets.find? (fun outlet => outlet.node = k) = none := by
      simpa using unlisted
    simp only [sorting, if_neg other, unfound] at member
    cases member
  case apart => trivial

/-- Before anything is built. -/
def emptyDesk : Executor Desk := withConfig { ioEnabled := false, timerEnabled := false } .spin
    ⟨[], ⟨∅, fun _ => []⟩⟩

def sourceOps : List (ExecOp Desk) := [.build { index := 0 }, .handle (.clone 0 .user)]

def odd : Outlet Nat := ⟨1, 2⟩

def noThreads : Threads Desk Nat := fun _ _ _ => ([], [])

/-- A router that has been given one output. -/
theorem sorting_ready {source c : Key} {key : Nat} {index place : NodeIndex}
    {before made routed : Executor Desk} (lived : before.Lived) (next : before.inners.length = c)
    (below : source < c)
    (built : before.execOps (sorting source c [])
      (routeStreamNode routerCell ⟨source, batchCell⟩ index .insertion) = .ok made)
    (outlets : outletsAfter (.stream routerCell ⟨source, batchCell⟩) key made [] = [⟨key, c + 1⟩])
    (alive : made.Alive c)
    (outputs : made.execOps (sorting source c [⟨key, c + 1⟩])
      (Router.route routerCell (some source) key place made) = .ok routed) :
    (∀ threads, (sorting source c [⟨key, c + 1⟩]).Routes
      (.stream routerCell ⟨source, batchCell⟩) parity threads c [⟨key, c + 1⟩]) ∧
      RouterLife (.stream routerCell ⟨source, batchCell⟩) parity c [⟨key, c + 1⟩] [] routed := by
  have none : (sorting source c []).Routes (.stream routerCell ⟨source, batchCell⟩) parity noThreads c [] :=
    sorting_routes below (fun _ no => by cases no) _
  have one : ∀ threads, (sorting source c [⟨key, c + 1⟩]).Routes
      (.stream routerCell ⟨source, batchCell⟩) parity threads c [⟨key, c + 1⟩] :=
    sorting_routes below fun outlet member => by
      rw [List.mem_singleton.mp member]
      exact ⟨Nat.lt_succ_self c, by simp, by simp⟩
  have start : RouterLife (.stream routerCell ⟨source, batchCell⟩) parity c [] [] made :=
    .made (sorting source c []) _ index .insertion _ none rfl lived next
      (fun p parent => by cases parent; exact below) built
  have life := start.routed (sorting source c [⟨key, c + 1⟩]) noThreads key place
    (by rw [outlets]; exact one _) alive outputs
  rw [outlets] at life
  exact ⟨one, life⟩

/-- The router has routed the number 1, and then the number 2. -/
theorem sorting_lives :
    ∃ first second ex ex', RouterLife sorter parity 1 [odd] [first] ex ∧
      RouterLife sorter parity 1 [odd] [first, second] ex' ∧
      ex.cycles < 2 ^ 64 ∧ ex'.cycles < 2 ^ 64 ∧ ex.All Event.ManualPresent ∧ ex'.All Event.ManualPresent ∧
      first.items = [1] ∧ second.items = [2] ∧ (routerCell.get ex.world).contents 2 = [1] ∧
      (routerCell.get ex'.world).contents 2 = [1] ∧
      ex.Alive 2 ∧ ex'.Alive 2 := by
  obtain ⟨before, made, routed, yielded, last, swept, again, last', swept', prepared, built,
    outputs, yields, nodes, sweeps, yields', nodes',
      sweeps', next, outlets, alive, facts⟩ :
      ∃ before made routed yielded last swept again last' swept', emptyDesk.execOps
        (sorting 0 1 []) sourceOps = .ok before ∧
        before.execOps (sorting 0 1 []) (routeStreamNode routerCell ⟨0, batchCell⟩ 1 .insertion) = .ok made ∧
        made.execOps (sorting 0 1 [odd]) (Router.route routerCell (some 0) 1 2 made) = .ok routed ∧
        routed.execOp (sorting 0 1 [odd]) (.yields 0) = .ok yielded ∧
        runNodes (sorting 0 1 [odd]) 4 instantly yielded = .ok (.running, last) ∧
        sweepLoop (sorting 0 1 [odd]) 4 last = .ok swept ∧
        swept.execOp (sorting 0 1 [odd]) (.yields 0) = .ok again ∧
        runNodes (sorting 0 1 [odd]) 4 instantly again = .ok (.running, last') ∧
        sweepLoop (sorting 0 1 [odd]) 4 last' = .ok swept' ∧
        before.inners.length = 1 ∧ outletsAfter sorter 1 made [] = [odd] ∧ made.Alive 1 ∧
        swept.cycles < 2 ^ 64 ∧ swept'.cycles < 2 ^ 64 ∧ swept.All Event.ManualPresent ∧
        swept'.All Event.ManualPresent ∧
        itemsOf (sorting 0 1 [odd]) (sorter.takes noThreads) 1 4 instantly yielded = [1] ∧
        itemsOf (sorting 0 1 [odd]) (sorter.takes noThreads) 1 4 instantly again = [2] ∧
        (routerCell.get swept.world).contents 2 = [1] ∧
        (routerCell.get swept'.world).contents 2 = [1] ∧ swept.Alive 2 ∧ swept'.Alive 2 :=
    ⟨_, _, _, _, _, _, _, _, _, rfl, rfl, rfl, rfl, rfl, rfl, rfl, rfl, rfl, rfl,
      rfl, by decide, by decide, by decide, by decide, by decide,
      rfl, rfl, rfl, rfl, by decide, by decide⟩
  obtain ⟨routes, ready⟩ :=
    sorting_ready (From.ops ⟨[], .start ⟨_, _, _, rfl⟩⟩ prepared) next Nat.zero_lt_one built outlets alive outputs
  have one : (sorting 0 1 [odd]).Routes sorter parity noThreads 1 [odd] := routes noThreads
  have life := (ready.op (sorting 0 1 [odd]) _ (.yields 0) one (fun _ => trivial) yields).pass
    (sorting 0 1 [odd]) _ 4 instantly one ⟨nodes, sweeps⟩
  have life' := (life.op (sorting 0 1 [odd]) _ (.yields 0) one (fun _ => trivial) yields').pass
    (sorting 0 1 [odd]) _ 4 instantly one ⟨nodes', sweeps'⟩
  exact ⟨_, _, _, _, life, life', facts⟩

/-- The output has a number of its own parity in the first cycle. -/
theorem odd_fresh_iff_fed :
    ∃ service ex, RouterLife sorter parity 1 [odd] [service] ex ∧ service.items = [1] ∧
      (Recent sorter parity service odd ex ↔ service.Feeds sorter parity odd) := by
  obtain ⟨first, second, ex, ex', life, life', few, few', manuals, manuals', items, -, -, -, alive, -⟩ :=
    sorting_lives
  exact ⟨first, ex, life, items, outputs_fresh_iff_fed
    (show RouterLife sorter parity 1 [odd] ([] ++ [first]) ex from life) few manuals odd List.mem_cons_self alive⟩

/-- In the second cycle the router has an even number only, and the output for odd numbers
still holds the one of the first. -/
theorem odd_output_stale :
    ∃ history service ex, RouterLife sorter parity 1 [odd] (history ++ [service]) ex ∧
      ex.cycles < 2 ^ 64 ∧ ex.All Event.ManualPresent ∧
      service.items = [2] ∧ ex.Alive odd.node ∧ (routerCell.get ex.world).contents odd.node = [1] ∧
      ¬ Recent sorter parity service odd ex := by
  obtain ⟨first, second, ex, ex', life, life', few, few', manuals, manuals', -, items, -, stale, -, alive⟩ :=
    sorting_lives
  refine ⟨[first], second, ex', life', few', manuals', items, alive, stale, fun recent => ?_⟩
  have held : 1 ∈ (sorter.cell.get ex'.world).contents odd.node := by
    show 1 ∈ (routerCell.get ex'.world).contents 2
    rw [stale]
    exact List.mem_cons_self
  have taken := (recent 1 held).1
  rw [items] at taken
  exact absurd (List.mem_singleton.mp taken) (by decide)

end Executor
end Wavelet
