import Wavelet.Cleanup.Holders
import Wavelet.Runtime.Walks
import Wavelet.Wsnl.Outlets

/-!
# The cache of a router

An output that dies takes itself from the cache, and a router that dies clears it. So as long as a
router lives, its cache lists its outputs that are alive: no key has two of them, and none that has
died stays behind. A call of `route` gives the output that is there for its key, and makes one if
there is none.
-/

namespace Wavelet

open Steps

variable {W K T : Type} [DecidableEq K]

namespace Router

/-- The output that is cached for a key. -/
def known (router : Router K T) (key : K) : Option Key := (router.cache.lookup key).map (·.node)

variable {router : Router K T} {key key' : K} {node : Key} {epoch : Nat}

theorem known_clear (router : Router K T) (key : K) (node : Key) (epoch : Nat) (key' : K) :
    (router.clear key node epoch).known key' = if key' = key then some node else router.known key' := by
  unfold known clear
  by_cases own : key' = key
  · rw [if_pos own, own, AList.lookup_insert]
    rfl
  · rw [if_neg own, AList.lookup_insert_ne own]

/-- An entry that is written again. -/
theorem known_clear_same (there : router.known key = some node) (epoch : Nat) :
    (router.clear key node epoch).known = router.known := by
  funext other
  rw [known_clear]
  split
  · rename_i own
    rw [own, there]
  · rfl

theorem known_erase (router : Router K T) (key key' : K) :
    known { router with cache := router.cache.erase key } key' =
      if key' = key then none else router.known key' := by
  unfold known
  by_cases own : key' = key
  · rw [if_pos own, own, AList.lookup_erase]
    rfl
  · rw [if_neg own, AList.lookup_erase_ne own]

theorem known_empty (contents : Key → List T) (key : K) : known (⟨∅, contents⟩ : Router K T) key = none := rfl

end Router

/-! ## The cycle functions -/

/-- The effects of a draft leave every output where it is cached. -/
structure Draft.Spares (cell : Cell W (Router K T)) (known : K → Option Key) (d : Draft W) : Prop where
  effects : ∀ effect ∈ d.effects, effect.Keeps fun w => (cell.get w).known = known
  world : (cell.get d.world).known = known

namespace Draft.Spares

variable {cell : Cell W (Router K T)} {known : K → Option Key} {d : Draft W} {route : T → K}
  {ex : Executor W} {ctx : ExecutionContext}

theorem new {w : W} (start : (cell.get w).known = known) : (Draft.new w).Spares cell known :=
  ⟨(fun _ none => by cases none), start⟩

theorem update (spares : d.Spares cell known) {f : W → W}
    (keeps : ∀ w, (cell.get w).known = known → (cell.get (f w)).known = known) :
    (d.update f).Spares cell known := by
  constructor
  · intro effect member
    rcases List.mem_append.mp member with old | new
    · exact spares.effects effect old
    · rw [List.mem_singleton.mp new]
      exact keeps
  · rw [Draft.world_update]
    exact keeps _ spares.world

theorem scheduleNode (spares : d.Spares cell known) (k : Key) : (d.scheduleNode k).Spares cell known := by
  constructor
  · intro effect member
    rcases List.mem_append.mp member with old | new
    · exact spares.effects effect old
    · rw [List.mem_singleton.mp new]
      trivial
  · rw [Draft.world_scheduleNode]
    exact spares.world

theorem push (spares : d.Spares cell known) (node : Key) (item : T) :
    (d.update (cell.modify (Router.push node item))).Spares cell known :=
  spares.update fun w same => by
    rw [Cell.get_modify]
    exact same

/-- Whether the item is routed or the scheduler refuses the output. -/
theorem routeItem (spares : d.Spares cell known) (item : T) {d' : Draft W}
    (h : routeItem cell route ex ctx d item = .ok d' ∨ routeItem cell route ex ctx d item = .error d') :
    d'.Spares cell known := by
  unfold Wavelet.routeItem at h
  split at h
  · rcases h with done | no
    · cases done
      exact spares
    · cases no
  · rename_i entry cached
    have there : known (route item) = some entry.node := by
      rw [← spares.world, Router.known, cached]
      rfl
    have cleared :
        (d.update (cell.modify (Router.clear (route item) entry.node ctx.epoch))).Spares cell known :=
      spares.update fun w same => by
        rw [Cell.get_modify, Router.known_clear_same (by rw [same, there])]
        exact same
    split at h
    · split at h
      · rcases h with done | no
        · cases done
          exact spares.push ..
        · cases no
      · dsimp only at h
        split at h
        · rcases h with no | refused
          · cases no
          · cases refused
            exact cleared
        · rcases h with done | no
          · cases done
            exact (cleared.scheduleNode _).push ..
          · cases no
    · rcases h with done | no
      · cases done
        exact spares
      · cases no

theorem routeItems (spares : d.Spares cell known) (items : List T) {d' : Draft W}
    (h : items.foldlM (Wavelet.routeItem cell route ex ctx) d = .ok d' ∨
      items.foldlM (Wavelet.routeItem cell route ex ctx) d = .error d') :
    d'.Spares cell known := by
  induction items generalizing d with
  | nil =>
    rcases h with done | no
    · cases done
      exact spares
    · cases no
  | cons item rest ih =>
    rw [List.foldlM_cons] at h
    cases first : Wavelet.routeItem cell route ex ctx d item with
    | ok mid =>
      rw [first] at h
      exact ih (spares.routeItem item (.inl first)) h
    | error mid =>
      rw [first] at h
      rcases h with no | stopped
      · cases no
      · cases stopped
        exact spares.routeItem item (.inr first)

theorem channelRouteLoop {both : Cell W (Router K T × Channel.System T)}
    {threads : Nat → List (Channel.Action T) × List (Channel.Action T)} (n : Nat)
    (spares : d.Spares both.fst known) {d' : Draft W}
    (h : (∃ control, channelRouteLoop route both ex ctx threads n d = .ok (d', control)) ∨
      channelRouteLoop route both ex ctx threads n d = .error d') : d'.Spares both.fst known := by
  induction n generalizing d with
  | zero =>
    rcases h with ⟨control, done⟩ | no
    · cases done
      exact spares
    · cases no
  | succ n ih =>
    rw [Wavelet.channelRouteLoop] at h
    rcases received : (both.snd.get d.world).tryReceive (threads n) with ⟨result, s⟩
    rw [received] at h
    have taken : (d.update (both.snd.modify fun _ => s)).Spares both.fst known :=
      spares.update fun w same => by
      rw [Cell.fst_modify_snd]
      exact same
    cases result with
    | ok item =>
      dsimp only at h
      cases first : Wavelet.routeItem both.fst route ex ctx (d.update (both.snd.modify fun _ => s)) item with
      | ok mid =>
        rw [first] at h
        exact ih (taken.routeItem item (.inl first)) h
      | error mid =>
        rw [first] at h
        rcases h with ⟨control, no⟩ | stopped
        · cases no
        · cases stopped
          exact taken.routeItem item (.inr first)
    | error e =>
      cases e <;>
        · rcases h with ⟨control, done⟩ | no
          · cases done
            exact taken
          · cases no

theorem answer {r : Except (Draft W) (Draft W × Control)}
    (spares : ∀ d', (∃ control, r = .ok (d', control)) ∨ r = .error d' → d'.Spares cell known) :
    ∀ effect ∈ (Draft.answer r).1, effect.Plain ∧ effect.Keeps fun w => (cell.get w).known = known := by
  intro effect member
  cases r with
  | ok done => exact ⟨done.1.plain effect member, (spares done.1 (.inl ⟨done.2, rfl⟩)).effects effect member⟩
  | error d' => exact ⟨d'.plain effect member, (spares d' (.inr rfl)).effects effect member⟩

theorem answer_items (spares : d.Spares cell known) (items : List T) :
    ∀ effect ∈ (Draft.answer ((items.foldlM (Wavelet.routeItem cell route ex ctx) d).map fun d => (d, .unchanged))).1,
      effect.Plain ∧ effect.Keeps fun w => (cell.get w).known = known := by
  apply answer
  intro d' ended
  apply spares.routeItems items
  rcases ended with ⟨control, done⟩ | stopped
  · obtain ⟨last, finished, same⟩ := map_ok done
    cases same
    exact .inl finished
  · right
    cases ran : items.foldlM (Wavelet.routeItem cell route ex ctx) d with
    | ok last =>
      rw [ran] at stopped
      cases stopped
    | error last =>
      rw [ran] at stopped
      cases stopped
      rfl

end Draft.Spares

/-- A router at work moves no output. -/
theorem RouterKind.keeps_known {kind : RouterKind W K T} (apart : kind.Apart) (route : T → K)
    (threads : Threads W T) (ex : Executor W) (ctx : ExecutionContext) :
    ∀ effect ∈ (kind.cycleFn route threads ex ctx).1,
      effect.Plain ∧ effect.Keeps fun w => (kind.cell.get w).known = (kind.cell.get ex.world).known := by
  cases kind with
  | stream cell source => exact Draft.Spares.answer_items (.new rfl) _
  | takeStream cell source =>
    have drained : ((Draft.new ex.world).update (source.data.modify fun _ => [])).Spares cell
        (cell.get ex.world).known :=
      (Draft.Spares.new rfl).update fun w same => by
        rw [Cell.modify, apart]
        exact same
    exact drained.answer_items _
  | channel both pollLimit =>
    exact Draft.Spares.answer fun d' => Draft.Spares.channelRouteLoop pollLimit (.new rfl)

/-! ## The cache and the lives -/

namespace Executor

variable {kind : RouterKind W K T} {route : T → K} {threads : Threads W T} {c : Key}
  {outlets : List (Outlet K)} {prog : Program W}
  {ex ex' : Executor W}

/-- What the cache of the router `c` says. -/
def known (kind : RouterKind W K T) (ex : Executor W) : K → Option Key := (kind.cell.get ex.world).known

/-- The cache of the router `c` lists its outputs that are alive. -/
structure Caches (kind : RouterKind W K T) (c : Key) (outlets : List (Outlet K)) (ex : Executor W) :
    Prop where
  cached : ∀ key k, ex.known kind key = some k → ⟨key, k⟩ ∈ outlets ∧ ex.Alive k
  listed : ex.Alive c → ∀ outlet ∈ outlets, ex.Alive outlet.node → ex.known kind outlet.key = some outlet.node

namespace Caches

theorem congr (caches : Caches kind c outlets ex) (alive : ∀ k, ex'.Alive k ↔ ex.Alive k)
    (same : ex'.known kind = ex.known kind) :
    Caches kind c outlets ex' where
  cached key k there := by
    rw [same] at there
    rw [alive]
    exact caches.cached key k there
  listed running outlet member living := by
    rw [same]
    exact caches.listed ((alive c).mp running) outlet member ((alive _).mp living)

theorem of_same (caches : Caches kind c outlets ex) (handles : ex'.handles = ex.handles)
    (world : ex'.world = ex.world) :
    Caches kind c outlets ex' := by
  refine caches.congr (fun k => ?_) (by rw [known, world]; rfl)
  rw [Alive, handles]
  exact Iff.rfl

theorem clone (caches : Caches kind c outlets ex) (o : Owner) (k : Key) :
    Caches kind c outlets (ex.cloneHandle o k) := by
  refine caches.congr (fun j => ?_) (by rw [known, world_cloneHandle]; rfl)
  unfold cloneHandle
  split
  · rename_i allowed
    exact holds_addHandle (o := .inner j) allowed.1
  · exact Iff.rfl

theorem applied {dropHandle : Executor W → Owner → Key → Executor W}
    (dropped : ∀ {s} o k, Caches kind c outlets s → Caches kind c outlets (dropHandle s o k))
    {op : HandleOp W} (keeps : op.Keeps fun w => (kind.cell.get w).known = ex.known kind)
    (caches : Caches kind c outlets ex) :
    Caches kind c outlets (applyHandleOp dropHandle ex op) := by
  cases op with
  | update f => exact caches.congr (fun _ => Iff.rfl) (keeps _ rfl)
  | clone k o => exact caches.clone o k
  | drop k o => cases o <;> first | exact caches | exact dropped _ k caches
  | markForSweep t => exact caches.of_same rfl rfl
  | notify t => exact caches.of_same (same_notify ex t).handles (world_pushNotification ex t)

theorem release {o : Owner} {k : Key} (caches : Caches kind c outlets ex) (left : (ex.release o k).Alive k) :
    Caches kind c outlets (ex.release o k) := by
  refine caches.congr (fun j => ⟨fun alive => holds_of_release (o := .inner j) alive, fun alive => ?_⟩) rfl
  by_cases own : j = k
  · rwa [own]
  · exact alive_release own alive

/-- The life of a node that is not cached is over. -/
theorem expire {o : Owner} {k : Key} (caches : Caches kind c outlets ex)
    (uncached : ∀ key, ex.known kind key ≠ some k) :
    Caches kind c outlets ((ex.release o k).expire k) where
  cached key j there := by
    refine ⟨(caches.cached key j there).1, alive_release (fun own => ?_) (caches.cached key j there).2⟩
    rw [own] at there
    exact uncached key there
  listed running outlet member living :=
    caches.listed (holds_of_release (o := .inner c) running) outlet member
      (holds_of_release (o := .inner outlet.node) living)

/-- An output that has died takes itself from the cache. -/
theorem erase {o : Owner} {outlet : Outlet K} (caches : Caches kind c outlets ex)
    (distinct : Distinct c outlets) (listed : outlet ∈ outlets) (alive : ex.Alive outlet.node)
    (last : ¬ (ex.release o outlet.node).Alive outlet.node) :
    Caches kind c outlets ({ (ex.release o outlet.node).expire outlet.node with
      world := kind.cell.modify (fun router => { router with cache := router.cache.erase outlet.key }) ex.world } : Executor W) := by
  have lived : ∀ {j}, (ex.release o outlet.node).Alive j → ex.Alive j :=
    fun living => holds_of_release (o := .inner _) living
  have after : ∀ key, known kind ({ (ex.release o outlet.node).expire outlet.node with
      world := kind.cell.modify (fun router => { router with cache := router.cache.erase outlet.key }) ex.world } : Executor W) key =
        if key = outlet.key then none else ex.known kind key := by
    intro key
    rw [known, Cell.get_modify, Router.known_erase]
    rfl
  constructor
  · intro key j there
    rw [after] at there
    split at there
    · cases there
    · rename_i other
      obtain ⟨member, living⟩ := caches.cached key j there
      refine ⟨member, alive_release (fun own => ?_) living⟩
      -- one node is the output for one key
      have same := distinct.outputs _ member _ listed own
      rw [← same] at other
      exact other rfl
  · intro running outlet' member living
    have before := caches.listed (lived running) outlet' member (lived living)
    rw [after, if_neg]
    · exact before
    · intro same
      rw [same, caches.listed (lived running) outlet listed alive] at before
      have one : outlet.node = outlet'.node := Option.some.inj before
      exact last (one ▸ living)

/-- A router that has died clears its cache. -/
theorem clear {mid : Executor W} {dropHandle : Executor W → Owner → Key → Executor W}
    (caches : Caches kind c outlets mid) (dead : ¬ mid.Alive c) :
    Caches kind c outlets ((routerOnDrop kind.cell mid).foldl (applyHandleOp dropHandle) mid) := by
  refine (foldl_inv (p := fun s : Executor W => Caches kind c outlets s ∧ ¬ s.Alive c)
      (fun s op member before => ?_) ⟨caches, dead⟩).1
  rw [routerOnDrop] at member
  rcases List.mem_append.mp member with mark | clears
  · obtain ⟨j, -, rfl⟩ := List.mem_map.mp mark
    exact ⟨before.1.of_same rfl rfl, before.2⟩
  · rw [List.mem_singleton.mp clears]
    refine ⟨⟨fun key j there => ?_, fun running => absurd running before.2⟩, before.2⟩
    simp only [known, applyHandleOp, Cell.get_modify, Router.known_empty] at there
    cases there

theorem destructor {dropHandle : Executor W → Owner → Key → Executor W} {o : Owner} {k : Key}
    (routes : prog.Routes kind route threads c outlets) (distinct : Distinct c outlets)
    (dropped : ∀ {s} o k, Caches kind c outlets s → Caches kind c outlets (dropHandle s o k))
    (alive : ex.Alive k) (last : ¬ (ex.release o k).Alive k) (caches : Caches kind c outlets ex) :
    Caches kind c outlets ((prog.onDrop ((ex.release o k).expire k) k).foldl
      (applyHandleOp dropHandle) ((ex.release o k).expire k)) := by
  by_cases output : ∃ outlet ∈ outlets, outlet.node = k
  · obtain ⟨outlet, listed, rfl⟩ := output
    rw [(routes.outputs outlet listed).2]
    exact caches.erase distinct listed alive last
  · have expired : Caches kind c outlets ((ex.release o k).expire k) :=
      caches.expire fun key there => output ⟨_, (caches.cached key k there).1, rfl⟩
    by_cases own : k = c
    · subst own
      rw [routes.ends]
      exact expired.clear last
    · refine foldl_inv (p := Caches kind c outlets) (fun s op member before => ?_) expired
      have leaves := routes.drops _ k own (fun outlet listed node => output ⟨outlet, listed, node⟩) op member
      exact before.applied dropped (HandleOp.keeps_of_left leaves fun w w' same there => by rw [same, there])

theorem drop (routes : prog.Routes kind route threads c outlets) (distinct : Distinct c outlets)
    {depth : Nat} (o : Owner) (k : Key) (caches : Caches kind c outlets ex) :
    Caches kind c outlets (dropHandleWith prog depth ex o k) := by
  induction depth generalizing ex o k with
  | zero => exact caches
  | succ depth ih =>
    rw [dropHandleWith]
    split
    · rename_i held
      dsimp only
      split
      · rename_i left
        exact caches.release left
      · rename_i last
        have alive : ex.Alive k := List.mem_map.mpr ⟨(o, k), held, rfl⟩
        apply foldl_inv (fun s j _ => ih (.inner k) j)
        exact caches.destructor routes distinct ih alive last
    · exact caches

/-- The effects of a cycle function. -/
theorem effects (routes : prog.Routes kind route threads c outlets) (distinct : Distinct c outlets)
    (i : NodeIndex) (now : CycleTime) (k : Key) (caches : Caches kind c outlets ex) :
    Caches kind c outlets (ex.applyEffects prog (prog.cycleFn ex ⟨i, now, ex.epoch⟩ k).1).2 := by
  by_cases own : k = c
  · subst own
    have spares := RouterKind.keeps_known routes.apart route threads ex ⟨i, now, ex.epoch⟩
    rw [← routes.cycles] at spares
    -- a router drops nothing while it works
    refine (effects_inv (p := fun s : Executor W => Caches kind k outlets s ∧ s.known kind = ex.known kind)
      (fun {s s'} effect member before applied => ?_) ⟨caches, rfl⟩).1
    obtain ⟨plain, keeps⟩ := spares effect member
    cases effect with
    | handle op =>
      cases applied
      cases op with
      | update f =>
        have same := keeps s.world before.2
        exact ⟨before.1.congr (fun _ => Iff.rfl) (same.trans before.2.symm), same⟩
      | _ => exact plain.elim
    | scheduleNode j =>
      simp only [applyEffect] at applied
      split at applied
      · have handles := (same_scheduleNode applied).handles
        have world := world_scheduleNode applied
        refine ⟨before.1.of_same handles world, ?_⟩
        rw [known, world]
        exact before.2
      · cases applied
        exact before
    | driver op => exact plain.elim
    | spawnSubgraph captures => exact plain.elim
  · refine effects_inv (p := Caches kind c outlets) (fun {s s'} effect member before applied => ?_) caches
    have leaves := routes.runs ex _ k own effect member
    cases effect with
    | handle op =>
      cases applied
      exact before.applied (fun o k => drop routes distinct o k)
        (HandleOp.keeps_of_left leaves fun w w' same there => by rw [same, there])
    | driver op => exact before.of_same (same_driverOp applied).handles (world_driverOp applied)
    | scheduleNode j =>
      simp only [applyEffect] at applied
      split at applied
      · exact before.of_same (same_scheduleNode applied).handles (world_scheduleNode applied)
      · cases applied
        exact before
    | spawnSubgraph captures =>
      cases applied
      have waits : Caches kind c outlets
          ({ s with deferredSpawns := s.deferredSpawns ++ [s.tickets], tickets := s.tickets + 1 } : Executor W) :=
        before.of_same rfl rfl
      exact foldl_inv (fun s k _ before => before.clone _ k) waits

theorem walks (routes : prog.Routes kind route threads c outlets) (distinct : Distinct c outlets) :
    Walks prog fun a b : Executor W => Caches kind c outlets a → Caches kind c outlets b where
  trans first second caches := second (first caches)
  same _ _ _ handles world caches := caches.of_same handles world
  enter alive caches := caches.congr (fun j => holds_addHandle (o := .inner j) alive) rfl
  drop _ o k caches := caches.drop routes distinct o k
  runs _ i now k caches := caches.effects routes distinct i now k

theorem nodes {fuel : Nat} {input : CycleInput} {exit : Exit} {last : Executor W}
    (routes : prog.Routes kind route threads c outlets) (distinct : Distinct c outlets)
    (h : runNodes prog fuel input ex = .ok (exit, last)) (caches : Caches kind c outlets ex) :
    Caches kind c outlets last := by
  have polling : ∀ {t : Option CycleTime} {polled : Executor W}, poll input ex.beginCycle =
      .ok (t, polled) → Caches kind c outlets polled :=
    fun polls => poll_inv (p := Caches kind c outlets) (fun s d before => before.of_same rfl rfl)
      (fun source r s s' fired before => before.of_same (same_fire fired).handles (world_fire fired)) polls
      (caches.of_same rfl rfl)
  rcases runNodes_ok prog h with ⟨-, polls⟩ | ⟨now, polled, polls, loops⟩
  · exact polling polls
  · exact (walks routes distinct).loop loops (polling polls)

end Caches

/-! ## The life of a router -/

theorem handles_build {args : BuildArgs} (h : ex.build args = .ok ex') :
    ex'.handles =
      ((args.data.filter fun k => ex.Alive k).map fun k => (.inner ex.inners.length, k)).reverse ++
      (((args.captures.filter fun k => ex.Alive k).map fun k => (.closure ex.inners.length, k)).reverse ++
        (if args.spawned then .graph ex.inners.length else .user, ex.inners.length) :: ex.handles) := by
  unfold build at h
  simp only at h
  split at h
  · cases h
  · split at h
    · cases h
    · split at h
      · cases h
      · cases h
        rw [addHandles_eq, addHandles_eq]
        rfl

theorem alive_build {args : BuildArgs} (h : ex.build args = .ok ex') {k : Key}
    (alive : ex.Alive k) : ex'.Alive k := by
  rw [Alive, handles_build h]
  obtain ⟨held, member, own⟩ := List.mem_map.mp alive
  refine List.mem_map.mpr ⟨held, ?_, own⟩
  exact List.mem_append_right _ (List.mem_append_right _ (List.mem_cons_of_mem _ member))

/-- A build touches no life, and no data. -/
theorem Caches.build {args : BuildArgs} (stands : Stands kind c outlets ex)
    (h : ex.build args = .ok ex') (caches : Caches kind c outlets ex) :
    Caches kind c outlets ex' := by
  have path := build_path h
  have same : ex'.known kind = ex.known kind := by
    obtain ⟨depth, graph, handles, -, -, -, rfl, -⟩ := build_ok h
    rfl
  constructor
  · intro key k there
    rw [same] at there
    exact ⟨(caches.cached key k there).1, alive_build h (caches.cached key k there).2⟩
  · intro running outlet member living
    rw [same]
    exact caches.listed (path.alive stands.router.built running) outlet member
      (path.alive (stands.outputs outlet member).built living)

/-- There is an output for the key. -/
theorem route_hit (prog : Program W) (outlets : List (Outlet K)) {key : K} (index : NodeIndex)
    {k : Key} (there : ex.known kind key = some k) (alive : ex.Alive k) :
    outletsAfter kind key ex outlets = outlets ∧
      ex.execOps prog (Router.route kind.cell kind.parent key index ex) = .ok (ex.addHandle .user k) := by
  obtain ⟨entry, cached, rfl⟩ := Option.map_eq_some_iff.mp there
  unfold outletsAfter Router.route
  rw [cached]
  dsimp only
  rw [if_pos alive, if_pos alive]
  refine ⟨rfl, ?_⟩
  show Except.ok (ex.cloneHandle .user entry.node) = _
  unfold cloneHandle
  rw [if_pos ⟨alive, trivial⟩]

/-- There is none, and one is built. -/
theorem route_miss (outlets : List (Outlet K)) {key : K} {index : NodeIndex}
    (none : ∀ k, ex.known kind key = some k → ¬ ex.Alive k)
    (h : ex.execOps prog (Router.route kind.cell kind.parent key index ex) = .ok ex') :
    outletsAfter kind key ex outlets = outlets ++ [⟨key, ex.inners.length⟩] ∧
      ∃ built,
        ex.build { index := index, relationships := kind.parent.toList.map fun p => (p, .observe) } = .ok built ∧
        ex' = { built with world := kind.cell.modify (Router.clear key ex.inners.length 0) built.world } := by
  have fresh : ∀ {args : BuildArgs}, ex.execOps prog [.build args,
      .handle (.update (kind.cell.modify (Router.clear key ex.inners.length 0)))] = .ok ex' →
      ∃ built, ex.build args = .ok built ∧
      ex' = { built with world := kind.cell.modify (Router.clear key ex.inners.length 0) built.world } := by
    intro args ops
    rw [execOps, List.foldlM_cons] at ops
    obtain ⟨built, builds, rest⟩ := bind_ok' ops
    cases rest
    exact ⟨built, builds, rfl⟩
  unfold outletsAfter
  unfold Router.route at h
  cases cached : (kind.cell.get ex.world).cache.lookup key with
  | none =>
    rw [cached] at h
    exact ⟨rfl, fresh h⟩
  | some entry =>
    have dead := none entry.node (by rw [known, Router.known, cached]; rfl)
    rw [cached] at h
    dsimp only at h ⊢
    rw [if_neg dead] at h ⊢
    exact ⟨rfl, fresh h⟩

theorem Caches.routed {key : K} {index : NodeIndex} (stands : Stands kind c outlets ex)
    (caches : Caches kind c outlets ex)
    (h : ex.execOps prog (Router.route kind.cell kind.parent key index ex) = .ok ex') :
    Caches kind c (outletsAfter kind key ex outlets) ex' := by
  cases there : ex.known kind key with
  | some k =>
    obtain ⟨-, alive⟩ := caches.cached key k there
    obtain ⟨same, given⟩ := route_hit prog outlets index there alive
    rw [given] at h
    cases h
    rw [same]
    exact caches.congr (fun j => holds_addHandle (o := .inner j) alive) rfl
  | none =>
    obtain ⟨after, built, builds, rfl⟩ := route_miss outlets (fun k no => by rw [there] at no; cases no) h
    have later := caches.build stands builds
    have unknown : built.known kind key = none := by
      obtain ⟨depth, graph, handles, -, -, -, rfl, -⟩ := build_ok builds
      exact there
    have cleared : ∀ key', known kind
        ({ built with world := kind.cell.modify (Router.clear key ex.inners.length 0) built.world } :
          Executor W) key' =
        if key' = key then some ex.inners.length else built.known kind key' := by
      intro key'
      rw [known, Cell.get_modify, Router.known_clear]
      rfl
    rw [after]
    constructor
    · intro key' k' cached
      rw [cleared] at cached
      split at cached
      · rename_i own
        cases cached
        rw [own]
        refine ⟨List.mem_append_right _ List.mem_cons_self, ?_⟩
        show built.Alive _
        rw [Alive, handles_build builds]
        exact List.mem_cons_self
      · obtain ⟨member, living⟩ := later.cached key' k' cached
        exact ⟨List.mem_append_left _ member, living⟩
    · intro running outlet member living
      rw [cleared]
      rcases List.mem_append.mp member with old | new
      · have cached := later.listed running outlet old living
        rw [if_neg]
        · exact cached
        · intro own
          rw [own, unknown] at cached
          cases cached
      · rw [List.mem_singleton.mp new, if_pos rfl]

theorem RouterLife.caches {history : List (Service W K T)}
    (life : RouterLife kind route c outlets history ex) : Caches kind c outlets ex := by
  induction life with
  | @made prog threads index order ops before ex routes makes lived next built made =>
    obtain ⟨init, args, rfl, -, -, parent, empty⟩ := RouterKind.construct_of_makes makes
    have constructed : Built (fun _ => True) prog init args c before ex := by
      refine ⟨lived, next, fun kr declared => ?_, made⟩
      rw [parent] at declared
      obtain ⟨p, given, rfl⟩ := List.mem_map.mp declared
      exact built p (Option.mem_toList.mp given)
    have cleared : (kind.cell.get ex.world).cache = ∅ := by
      refine constructed.world (p := fun w => (kind.cell.get w).cache = ∅) (fun s k op member => ?_) (empty _)
      by_cases own : k = c
      · rw [own, routes.ends, routerOnDrop] at member
        rcases List.mem_append.mp member with mark | clear
        · obtain ⟨j, -, rfl⟩ := List.mem_map.mp mark
          trivial
        · rw [List.mem_singleton.mp clear]
          intro w _
          rw [Cell.get_modify]
      · have leaves := routes.drops s k own (fun _ none => by cases none) op member
        exact HandleOp.keeps_of_left leaves fun w w' same empty => by rw [same, empty]
    refine ⟨fun key k there => ?_, fun _ _ none => by cases none⟩
    rw [known, Router.known, cleared] at there
    cases there
  | @op prog threads op outlets history ex ex' life routes leaves applied ih =>
    cases op with
    | handle op =>
      cases applied
      exact ih.applied (fun o k => Caches.drop routes life.stands.distinct o k)
        (HandleOp.keeps_of_left leaves fun w w' same there => by rw [same, there])
    | driver op =>
      simp only [execOp] at applied
      split at applied
      · rename_i next registered
        cases applied
        exact ih.of_same (same_driverOp registered).handles (world_driverOp registered)
      · cases applied
    | build args => exact ih.build life.stands applied
  | routed prog threads key index life routes alive applied ih => exact ih.routed life.stands applied
  | opens tickets life ih => exact ih.of_same rfl rfl
  | @closes prog threads ticket outlets history ex life routes ih =>
    exact (Caches.walks routes life.stands.distinct).owner ex (.spawn ticket) ih
  | pass prog threads fuel input life routes passes ih =>
    have distinct := life.stands.distinct
    exact (Caches.walks routes distinct).sweepLoop passes.sweeps (ih.nodes routes distinct passes.nodes)
  | stopped prog threads fuel input exit life routes no nodes ih =>
    exact ih.nodes routes life.stands.distinct nodes

/-- What a call of `route` in the state `ex` makes of it. -/
structure Gives (kind : RouterKind W K T) (key : K) (outlets : List (Outlet K))
    (ex ex' : Executor W) : Prop where
  old : ∀ outlet ∈ outlets, outlet.key = key → ex.Alive outlet.node →
    outletsAfter kind key ex outlets = outlets ∧ ex' = ex.addHandle .user outlet.node
  new : (∀ outlet ∈ outlets, outlet.key = key → ¬ ex.Alive outlet.node) →
    outletsAfter kind key ex outlets = outlets ++ [⟨key, ex.inners.length⟩] ∧
    ex'.handles = (.user, ex.inners.length) :: ex.handles ∧
      (kind.cell.get ex'.world).contents ex.inners.length = []
  one : ∃! outlet, outlet ∈ outletsAfter kind key ex outlets ∧ outlet.key = key ∧ ex'.Alive outlet.node

/-- In the life of a router, whatever its cycles return, its cache lists the outputs that are alive,
as long as it lives itself. A call of `route` gives the one that is there for the key; without one
it makes one, if it returns. -/
theorem route_gets_or_makes {history : List (Service W K T)}
    (life : RouterLife kind route c outlets history ex) (running : ex.Alive c) :
    (∀ outlet, ex.known kind outlet.key = some outlet.node ↔ outlet ∈ outlets ∧ ex.Alive outlet.node) ∧
      ∀ (prog : Program W) key index,
        (∀ outlet ∈ outlets, outlet.key = key → ex.Alive outlet.node →
          ex.execOps prog (Router.route kind.cell kind.parent key index ex) =
          .ok (ex.addHandle .user outlet.node)) ∧
        ∀ ex', ex.execOps prog (Router.route kind.cell kind.parent key index ex) = .ok ex' →
        Gives kind key outlets ex ex' := by
  have caches := life.caches
  refine ⟨fun outlet => ⟨caches.cached _ _, fun both => caches.listed running outlet both.1 both.2⟩,
    fun prog key index => ⟨?_, ?_⟩⟩
  · rintro outlet listed rfl alive
    exact (route_hit prog outlets index (caches.listed running outlet listed alive) alive).2
  intro ex' routed
  have after := caches.routed life.stands routed
  constructor
  case old =>
    rintro outlet listed rfl alive
    obtain ⟨same, given⟩ := route_hit prog outlets index (caches.listed running outlet listed alive) alive
    rw [given] at routed
    cases routed
    exact ⟨same, rfl⟩
  case new =>
    intro none
    obtain ⟨made, built, builds, rfl⟩ := route_miss outlets
      (fun k there => none _ (caches.cached key k there).1 rfl) routed
    refine ⟨made, handles_build builds, ?_⟩
    rw [Cell.get_modify]
    exact Function.update_self ..
  case one =>
    have given : ex'.Alive c ∧ ∃ k, ex'.known kind key = some k := by
      cases there : ex.known kind key with
      | some k =>
        obtain ⟨-, alive⟩ := caches.cached key k there
        obtain ⟨-, given⟩ := route_hit prog outlets index there alive
        rw [given] at routed
        cases routed
        exact ⟨(holds_addHandle (o := .inner c) alive).mpr running, k, there⟩
      | none =>
        obtain ⟨-, built, builds, rfl⟩ :=
          route_miss outlets (fun k no => by rw [there] at no; cases no) routed
        refine ⟨alive_build builds running, ex.inners.length, ?_⟩
        rw [known, Cell.get_modify, Router.known_clear, if_pos rfl]
    obtain ⟨running', k, there⟩ := given
    obtain ⟨member, alive⟩ := after.cached key k there
    refine ⟨⟨key, k⟩, ⟨member, rfl, alive⟩, fun other facts => ?_⟩
    obtain ⟨listed, own, living⟩ := facts
    -- both are cached for the key
    have cached := after.listed running' other listed living
    rw [own, there] at cached
    obtain ⟨key', node⟩ := other
    cases own
    cases cached
    rfl

/-- The output for odd numbers is given again, and made again after its last handle is dropped. -/
theorem odd_output_given :
    ∃ ex again dropped anew, RouterLife sorter parity 1 [odd] [] ex ∧
      RouterLife sorter parity 1 [odd] [] dropped ∧
      ex.execOps (sorting 0 1 [odd]) (Router.route routerCell (some 0) 1 3 ex) = .ok again ∧
      again = ex.addHandle .user 2 ∧
      ex.execOp (sorting 0 1 [odd]) (.handle (.drop 2 .user)) = .ok dropped ∧
      dropped.execOps (sorting 0 1 [odd]) (Router.route routerCell (some 0) 1 3 dropped) = .ok anew ∧
      anew.handles = (.user, 3) :: dropped.handles := by
  obtain ⟨before, made, routed, again, dropped, anew, prepared, built, outputs, gives, drops, makes,
    next, outlets, alive, lives, living, gone⟩ :
      ∃ before made routed again dropped anew, emptyDesk.execOps (sorting 0 1 []) sourceOps = .ok before ∧
        before.execOps (sorting 0 1 []) (routeStreamNode routerCell ⟨0, batchCell⟩ 1 .insertion) = .ok made ∧
        made.execOps (sorting 0 1 [odd]) (Router.route routerCell (some 0) 1 2 made) = .ok routed ∧
        routed.execOps (sorting 0 1 [odd]) (Router.route routerCell (some 0) 1 3 routed) = .ok again ∧
        routed.execOp (sorting 0 1 [odd]) (.handle (.drop 2 .user)) = .ok dropped ∧
        dropped.execOps (sorting 0 1 [odd]) (Router.route routerCell (some 0) 1 3 dropped) = .ok anew ∧
        before.inners.length = 1 ∧ outletsAfter sorter 1 made [] = [odd] ∧ made.Alive 1 ∧
        (routed.Alive 1 ∧ routed.Alive 2) ∧
        dropped.Alive 1 ∧ (¬ dropped.Alive 2 ∧ dropped.inners.length = 3) :=
    ⟨_, _, _, _, _, _, rfl, rfl, rfl, rfl, rfl, rfl, rfl, rfl, by decide, by decide, by decide, by decide⟩
  obtain ⟨routes, life⟩ :=
    sorting_ready (From.ops ⟨[], .start ⟨_, _, _, rfl⟩⟩ prepared) next Nat.zero_lt_one built outlets alive outputs
  have life' := life.op (sorting 0 1 [odd]) noThreads (.handle (.drop 2 .user)) (routes noThreads)
    (fun _ => trivial) drops
  have given := ((route_gets_or_makes life lives.1).2 _ _ _).2 _ gives
  have new := ((route_gets_or_makes life' living).2 _ _ _).2 _ makes
  have none : ∀ outlet ∈ [odd], outlet.key = 1 → ¬ dropped.Alive outlet.node := by
    intro outlet member _
    rw [List.mem_singleton.mp member]
    exact gone.1
  have handles := (new.new none).2.1
  rw [gone.2] at handles
  exact ⟨routed, again, dropped, anew, life, life', gives,
    (given.old odd List.mem_cons_self rfl lives.2).2, drops, makes, handles⟩

end Executor
end Wavelet
