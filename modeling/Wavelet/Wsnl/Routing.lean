import Wavelet.Wsnl.Construct
import Wavelet.Wsnl.Control

/-!
# What a router does with its items

Each item goes to the output that is cached for its key, if that output is alive. The first
item for an output in a cycle clears it and schedules it. The three cycle functions do this
with the items that they take from their source or from their channel.
-/

namespace Wavelet

variable {W K T : Type} [DecidableEq K]

/-! ## One item -/

namespace Router

section Take

variable (route : T → K) (alive : Key → Prop) [DecidablePred alive] (epoch : Nat)

/-- The entry of the output that an item goes to. -/
def target (router : Router K T) (item : T) : Option RouterEntry :=
  (router.cache.lookup (route item)).filter fun entry => alive entry.node

/-- What becomes of the cache and the outputs. -/
def take (router : Router K T) (item : T) : Router K T :=
  match router.target route alive item with
  | none => router
  | some entry =>
    (if entry.epoch = epoch then router else router.clear (route item) entry.node epoch).push entry.node item

/-- The output that is scheduled. -/
def calls (router : Router K T) (item : T) : List Key :=
  match router.target route alive item with
  | none => []
  | some entry => if entry.epoch = epoch then [] else [entry.node]

/-- The outputs that are scheduled for one item after the other. -/
def callsFor (router : Router K T) : List T → List Key
  | [] => []
  | item :: rest => router.calls route alive epoch item ++ (router.take route alive epoch item).callsFor rest

end Take

variable {route : T → K} {alive : Key → Prop} [DecidablePred alive] {epoch : Nat}
  {router : Router K T} {item : T}
  {entry : RouterEntry}

theorem target_eq_some_iff :
    router.target route alive item = some entry ↔ router.cache.lookup (route item) = some entry ∧
      alive entry.node := by
  simp [target, Option.filter_eq_some_iff]

theorem take_of_none (none : router.target route alive item = none) :
    router.take route alive epoch item = router := by
  rw [take, none]

theorem lookup_take (goes : router.target route alive item = some entry) (key : K) :
    (router.take route alive epoch item).cache.lookup key =
      if key = route item then some ⟨entry.node, epoch⟩ else router.cache.lookup key := by
  rw [take, goes]
  obtain ⟨cached, -⟩ := target_eq_some_iff.mp goes
  by_cases seen : entry.epoch = epoch
  · simp only [if_pos seen, push]
    split
    · rename_i own
      rw [own, cached, ← seen]
    · rfl
  · simp only [if_neg seen, push, clear]
    split
    · rename_i own
      rw [own, AList.lookup_insert]
    · rename_i other
      rw [AList.lookup_insert_ne other]

theorem contents_take (goes : router.target route alive item = some entry) :
    (router.take route alive epoch item).contents =
      Function.update router.contents entry.node
      ((if entry.epoch = epoch then router.contents entry.node else []) ++ [item]) := by
  rw [take, goes]
  by_cases seen : entry.epoch = epoch
  · simp [if_pos seen, push]
  · simp [if_neg seen, push, clear]

/-- An item changes no entry but for its epoch. -/
theorem node_take {key : K} {entry' : RouterEntry}
    (h : (router.take route alive epoch item).cache.lookup key = some entry') :
    ∃ entry, router.cache.lookup key = some entry ∧ entry.node = entry'.node := by
  cases goes : router.target route alive item with
  | none =>
    rw [take_of_none goes] at h
    exact ⟨entry', h, rfl⟩
  | some entry =>
    rw [lookup_take goes] at h
    split at h
    · rename_i own
      cases h
      exact ⟨entry, by rw [own]; exact (target_eq_some_iff.mp goes).1, rfl⟩
    · exact ⟨entry', h, rfl⟩

theorem mem_calls {k : Key} (h : k ∈ router.calls route alive epoch item) :
    ∃ entry, router.cache.lookup (route item) = some entry ∧ alive entry.node ∧
      entry.epoch ≠ epoch ∧ entry.node = k := by
  unfold calls at h
  split at h
  · cases h
  · rename_i entry goes
    split at h
    · cases h
    · rename_i unseen
      obtain ⟨cached, lives⟩ := target_eq_some_iff.mp goes
      exact ⟨entry, cached, lives, unseen, (List.mem_singleton.mp h).symm⟩

theorem mem_callsFor {k : Key} {items : List T} (h : k ∈ router.callsFor route alive epoch items) :
    ∃ key entry, router.cache.lookup key = some entry ∧ alive entry.node ∧ entry.node = k := by
  induction items generalizing router with
  | nil => cases h
  | cons item rest ih =>
    rcases List.mem_append.mp h with now | later
    · obtain ⟨entry, cached, lives, -, same⟩ := mem_calls now
      exact ⟨_, entry, cached, lives, same⟩
    · obtain ⟨key, entry', cached, lives, rfl⟩ := ih later
      obtain ⟨entry, before, same⟩ := node_take cached
      exact ⟨key, entry, before, by rwa [same], same⟩

end Router

/-! ## What the outputs hold -/

/-- An output with its key. -/
structure Outlet (K : Type) where
  key : K
  node : Key
  deriving DecidableEq, Repr

namespace Outlet

variable (route : T → K)

/-- The items that go to an output. -/
def share (items : List T) (outlet : Outlet K) : List T := items.filter fun item => route item = outlet.key

/-- The entry of an output has the epoch if the router has taken an item for it. -/
def Stamped (epoch : Nat) (items : List T) (outlet : Outlet K) (entry : RouterEntry) : Prop :=
  entry.epoch = epoch ↔ outlet.share route items ≠ []

/-- What an output holds that held `before` when the cycle began. -/
def holds (before : Key → List T) (items : List T) (outlet : Outlet K) : List T :=
  if outlet.share route items = [] then before outlet.node else outlet.share route items

end Outlet

/-- The outputs of a router: those that are alive are cached as long as the router is, and
hold what they are said to hold. -/
structure Router.Serves (outlets : List (Outlet K)) (alive : Key → Prop) (running : Prop) (epoch : Nat)
    (stamped : Outlet K → RouterEntry → Prop) (held : Outlet K → List T) (router : Router K T) : Prop where
  entries : ∀ key entry, router.cache.lookup key = some entry → ⟨key, entry.node⟩ ∈ outlets ∧
    entry.epoch ≤ epoch
  cached : running → ∀ outlet ∈ outlets, alive outlet.node →
    ∃ entry, router.cache.lookup outlet.key = some entry ∧
    entry.node = outlet.node ∧ stamped outlet entry
  contents : ∀ outlet ∈ outlets, alive outlet.node → router.contents outlet.node = held outlet

namespace Router.Serves

variable {route : T → K} {outlets : List (Outlet K)} {alive : Key → Prop} {running : Prop} {epoch : Nat}
  {stamped : Outlet K → RouterEntry → Prop} {held : Outlet K → List T} {before : Key → List T}
    {items : List T} {router : Router K T}

/-- Fewer nodes are alive, and time has gone on. -/
theorem mono (serves : router.Serves outlets alive running epoch stamped held) {alive' : Key → Prop}
    {running' : Prop} {epoch' : Nat} {stamped' : Outlet K → RouterEntry → Prop}
    (lives : ∀ outlet ∈ outlets, alive' outlet.node → alive outlet.node) (runs : running' → running)
    (later : epoch ≤ epoch')
    (stamps : ∀ outlet ∈ outlets, ∀ entry, entry.epoch ≤ epoch → stamped outlet entry →
      stamped' outlet entry) :
    router.Serves outlets alive' running' epoch' stamped' held where
  entries key entry there :=
    ⟨(serves.entries key entry there).1, Nat.le_trans (serves.entries key entry there).2 later⟩
  cached here outlet member living := by
    obtain ⟨entry, there, node, stamp⟩ := serves.cached (runs here) outlet member (lives outlet member living)
    exact ⟨entry, there, node, stamps outlet member entry (serves.entries _ _ there).2 stamp⟩
  contents outlet member living := serves.contents outlet member (lives outlet member living)

/-- An output has died: its destructor removes its entry. -/
theorem erase (serves : router.Serves outlets alive running epoch stamped held) {key : K}
    (gone : ∀ outlet ∈ outlets, alive outlet.node → running → outlet.key ≠ key) :
    Serves outlets alive running epoch stamped held { router with cache := router.cache.erase key } where
  entries key' entry there := by
    apply serves.entries key' entry
    by_cases same : key' = key
    · rw [same, AList.lookup_erase] at there
      cases there
    · rwa [AList.lookup_erase_ne same] at there
  cached here outlet member living := by
    rw [AList.lookup_erase_ne (gone outlet member living here)]
    exact serves.cached here outlet member living
  contents := serves.contents

/-- The router has died: its destructor clears the cache. -/
theorem empty (serves : router.Serves outlets alive running epoch stamped held) (gone : ¬ running) :
    Serves outlets alive running epoch stamped held { router with cache := ∅ } where
  entries _ _ there := by cases there
  cached here := absurd here gone
  contents := serves.contents

/-- A new output. -/
theorem clear (serves : router.Serves outlets alive running epoch (fun _ _ => True) held) {key : K}
    {fresh : Key} (others : running → ∀ outlet ∈ outlets, alive outlet.node → outlet.key ≠ key)
    (old : ∀ outlet ∈ outlets, outlet.node ≠ fresh) :
    (router.clear key fresh 0).Serves (outlets ++ [⟨key, fresh⟩]) alive running epoch (fun _ _ => True)
      fun outlet => if outlet.node = fresh then [] else held outlet where
  entries key' entry there := by
    rw [Router.clear] at there
    by_cases same : key' = key
    · rw [same, AList.lookup_insert] at there
      cases there
      rw [same]
      exact ⟨List.mem_append_right _ List.mem_cons_self, Nat.zero_le _⟩
    · rw [AList.lookup_insert_ne same] at there
      exact ⟨List.mem_append_left _ (serves.entries key' entry there).1, (serves.entries key' entry there).2⟩
  cached here outlet member living := by
    rw [Router.clear]
    rcases List.mem_append.mp member with known | new
    · obtain ⟨entry, there, node, -⟩ := serves.cached here outlet known living
      exact ⟨entry, by rwa [AList.lookup_insert_ne (others here outlet known living)], node, trivial⟩
    · rw [List.mem_singleton.mp new]
      exact ⟨_, AList.lookup_insert _, rfl, trivial⟩
  contents outlet member living := by
    simp only [Router.clear]
    rcases List.mem_append.mp member with known | new
    · rw [if_neg (old outlet known), Function.update_of_ne (old outlet known)]
      exact serves.contents outlet known living
    · rw [List.mem_singleton.mp new, if_pos rfl, Function.update_self]

variable [DecidablePred alive]

theorem share_own {outlet : Outlet K} {item : T} (own : outlet.key = route item) :
    outlet.share route (items ++ [item]) = outlet.share route items ++ [item] := by
  simp [Outlet.share, own]

theorem share_other {outlet : Outlet K} {item : T} (other : outlet.key ≠ route item) :
    outlet.share route (items ++ [item]) = outlet.share route items := by
  simp [Outlet.share, Ne.symm other]

theorem stamped_other {outlet : Outlet K} {item : T} (other : outlet.key ≠ route item) :
    Outlet.Stamped route epoch (items ++ [item]) outlet = Outlet.Stamped route epoch items outlet := by
  funext entry
  rw [Outlet.Stamped, Outlet.Stamped, share_other other]

theorem holds_other {outlet : Outlet K} {item : T} (other : outlet.key ≠ route item) :
    Outlet.holds route before (items ++ [item]) outlet = Outlet.holds route before items outlet := by
  rw [Outlet.holds, Outlet.holds, share_other other]

/-- One more item. -/
theorem take
    (serves : router.Serves outlets alive running epoch (Outlet.Stamped route epoch items)
      (Outlet.holds route before items)) (here : running)
    (apart : ∀ a ∈ outlets, ∀ b ∈ outlets, a.node = b.node → a = b) (item : T) :
    (router.take route alive epoch item).Serves outlets alive running epoch
      (Outlet.Stamped route epoch (items ++ [item]))
      (Outlet.holds route before (items ++ [item])) := by
  obtain ⟨entries, cached, contents⟩ := serves
  cases goes : router.target route alive item with
  | none =>
    have others : ∀ outlet ∈ outlets, alive outlet.node → outlet.key ≠ route item := by
      intro outlet member lives own
      obtain ⟨entry, there, node, -⟩ := cached here outlet member lives
      rw [own] at there
      rw [Router.target_eq_some_iff.mpr ⟨there, by rwa [node]⟩] at goes
      cases goes
    rw [Router.take_of_none goes]
    constructor
    · exact entries
    · intro _ outlet member lives
      rw [stamped_other (others outlet member lives)]
      exact cached here outlet member lives
    · intro outlet member lives
      rw [holds_other (others outlet member lives)]
      exact contents outlet member lives
  | some entry =>
    obtain ⟨found, living⟩ := Router.target_eq_some_iff.mp goes
    -- the output of this key is the one that is cached
    have own : ∀ outlet ∈ outlets, alive outlet.node → outlet.key = route item →
        outlet.node = entry.node ∧ (entry.epoch = epoch ↔ outlet.share route items ≠ []) := by
      intro outlet member lives same
      obtain ⟨entry', there, node, stamped⟩ := cached here outlet member lives
      rw [same, found] at there
      cases there
      exact ⟨node.symm, stamped⟩
    constructor
    · intro key entry' there
      rw [Router.lookup_take goes] at there
      split at there
      · rename_i same
        cases there
        exact ⟨by rw [same]; exact (entries _ _ found).1, Nat.le_refl _⟩
      · exact entries key entry' there
    · intro _ outlet member lives
      rw [Router.lookup_take goes]
      split
      · rename_i same
        exact ⟨_, rfl, (own outlet member lives same).1.symm, by simp [Outlet.Stamped, share_own same]⟩
      · rename_i other
        rw [stamped_other other]
        exact cached here outlet member lives
    · intro outlet member lives
      rw [Router.contents_take goes]
      by_cases same : outlet.key = route item
      · obtain ⟨node, stamped⟩ := own outlet member lives same
        have some : outlet.share route items ++ [item] ≠ [] := by simp
        rw [Outlet.holds, share_own same, if_neg some, ← node, Function.update_self,
          contents outlet member lives, Outlet.holds]
        by_cases seen : entry.epoch = epoch
        · rw [if_pos seen, if_neg (stamped.mp seen)]
        · have none : outlet.share route items = [] := not_not.mp fun some => seen (stamped.mpr some)
          rw [if_neg seen, none]
      · have other : outlet.node ≠ entry.node := by
          intro node
          have equal := apart outlet member _ (entries _ _ found).1 node
          rw [equal] at same
          exact same rfl
        rw [holds_other same, Function.update_of_ne other]
        exact contents outlet member lives

theorem foldl
    (serves : router.Serves outlets alive running epoch (Outlet.Stamped route epoch items)
      (Outlet.holds route before items)) (here : running)
    (apart : ∀ a ∈ outlets, ∀ b ∈ outlets, a.node = b.node → a = b) (more : List T) :
    (more.foldl (Router.take route alive epoch) router).Serves outlets alive running epoch
      (Outlet.Stamped route epoch (items ++ more))
      (Outlet.holds route before (items ++ more)) := by
  induction more generalizing items router with
  | nil =>
    rw [List.append_nil]
    exact serves
  | cons item rest ih =>
    have later := ih (serves.take here apart item)
    rwa [List.append_assoc] at later

theorem count_calls
    (serves : router.Serves outlets alive running epoch (Outlet.Stamped route epoch items)
      (Outlet.holds route before items)) (here : running)
    (apart : ∀ a ∈ outlets, ∀ b ∈ outlets, a.node = b.node → a = b) (item : T) {outlet : Outlet K}
    (member : outlet ∈ outlets) (living : alive outlet.node) :
    (router.calls route alive epoch item).count outlet.node = if outlet.key = route item ∧
      outlet.share route items = [] then 1 else 0 := by
  by_cases own : outlet.key = route item
  · obtain ⟨entry, there, node, stamped⟩ := serves.cached here outlet member living
    rw [own] at there
    have goes : router.target route alive item = some entry :=
      Router.target_eq_some_iff.mpr ⟨there, by rwa [node]⟩
    rw [Router.calls, goes]
    by_cases none : outlet.share route items = []
    · have unseen : entry.epoch ≠ epoch := fun seen => stamped.mp seen none
      simp [own, none, unseen, node]
    · have seen : entry.epoch = epoch := stamped.mpr none
      simp [none, seen]
  · rw [if_neg fun both => own both.1, List.count_eq_zero]
    intro called
    obtain ⟨entry, there, -, -, node⟩ := Router.mem_calls called
    -- the output of the item would be this one
    have other := apart outlet member _ (serves.entries _ _ there).1 node.symm
    rw [other] at own
    exact own rfl

/-- An output is scheduled once, with its first item in the cycle. -/
theorem count_callsFor
    (serves : router.Serves outlets alive running epoch (Outlet.Stamped route epoch items)
      (Outlet.holds route before items)) (here : running)
    (apart : ∀ a ∈ outlets, ∀ b ∈ outlets, a.node = b.node → a = b) (more : List T) {outlet : Outlet K}
    (member : outlet ∈ outlets) (living : alive outlet.node) :
    (router.callsFor route alive epoch more).count outlet.node =
      if outlet.share route items = [] ∧ outlet.share route more ≠ [] then 1 else 0 := by
  induction more generalizing items router with
  | nil => simp [Router.callsFor, Outlet.share]
  | cons item rest ih =>
    have later := ih (serves.take here apart item)
    rw [Router.callsFor, List.count_append, serves.count_calls here apart item member living, later]
    by_cases own : outlet.key = route item
    · rw [share_own own]
      simp [own, Outlet.share]
    · rw [share_other own]
      simp [own, Outlet.share, Ne.symm own]

end Router.Serves

/-! ## The cycle functions -/

namespace Draft

/-- The calls of `schedule_node` so far. -/
def calls (d : Draft W) : List Key :=
  d.effects.filterMap fun
    | .scheduleNode k => some k
    | _ => none

@[simp] theorem calls_new (w : W) : (new w).calls = [] := rfl

@[simp] theorem calls_update (d : Draft W) (f : W → W) : (d.update f).calls = d.calls := by
  simp [calls, update, add]

@[simp] theorem calls_scheduleNode (d : Draft W) (k : Key) : (d.scheduleNode k).calls = d.calls ++ [k] := by
  simp [calls, scheduleNode, add]

@[simp] theorem start_update (d : Draft W) (f : W → W) : (d.update f).start = d.start := rfl

@[simp] theorem start_scheduleNode (d : Draft W) (k : Key) : (d.scheduleNode k).start = d.start := rfl

theorem mem_calls {d : Draft W} {k : Key} : k ∈ d.calls ↔ .scheduleNode k ∈ d.effects := by
  simp only [calls, List.mem_filterMap]
  constructor
  · rintro ⟨effect, member, same⟩
    split at same
    · cases same
      exact member
    · cases same
  · intro member
    exact ⟨_, member, rfl⟩

end Draft

/-- No output that is alive lies above the cursor. -/
def Router.Low (router : Router K T) (ex : Executor W) : Prop :=
  ∀ key entry, router.cache.lookup key = some entry → ex.Alive entry.node →
    ex.scheduler.currDepth ≤ (ex.inner entry.node).depth

variable {cell : Cell W (Router K T)} {route : T → K} {ex : Executor W} {ctx : ExecutionContext}

theorem Router.Low.take {router : Router K T} (low : router.Low ex) (epoch : Nat) (item : T) :
    (router.take route ex.Alive epoch item).Low ex := by
  intro key entry' cached lives
  obtain ⟨entry, before, same⟩ := Router.node_take cached
  rw [← same] at lives ⊢
  exact low key entry before lives

/-- The draft `d'` goes on from `d` with what a router does to `items`. -/
structure Draft.Routes (cell : Cell W (Router K T)) (route : T → K) (ex : Executor W) (epoch : Nat)
    (items : List T) (d d' : Draft W) :
    Prop where
  start : d'.start = d.start
  world : cell.get d'.world = items.foldl (Router.take route ex.Alive epoch) (cell.get d.world)
  calls : d'.calls = d.calls ++ (cell.get d.world).callsFor route ex.Alive epoch items

/-- The draft `d'` differs from `d` in one cell. -/
def Draft.Alters (cell : Cell W (Router K T)) (d d' : Draft W) : Prop :=
  ∀ p : W → Prop, (∀ f w, p w → p (cell.modify f w)) → p d.world → p d'.world

namespace Draft.Routes

theorem nil (d : Draft W) (epoch : Nat) : Routes cell route ex epoch [] d d :=
  ⟨rfl, rfl, (List.append_nil _).symm⟩

theorem cons {item : T} {rest : List T} {epoch : Nat} {d d' d'' : Draft W}
    (first : Routes cell route ex epoch [item] d d')
    (later : Routes cell route ex epoch rest d' d'') : Routes cell route ex epoch (item :: rest) d d'' where
  start := later.start.trans first.start
  world := by
    rw [later.world, first.world]
    rfl
  calls := by
    rw [later.calls, first.calls, first.world]
    simp [Router.callsFor]

theorem low {items : List T} {epoch : Nat} {d d' : Draft W} (routes : Routes cell route ex epoch items d d')
    (low : (cell.get d.world).Low ex) : (cell.get d'.world).Low ex := by
  rw [routes.world]
  exact Steps.foldl_inv (p := fun router : Router K T => router.Low ex)
    (fun router item _ low => low.take epoch item) low

end Draft.Routes

/-- An item for an output that the scheduler takes is routed. -/
theorem routeItem_routes (d : Draft W) (item : T) (low : (cell.get d.world).Low ex) :
    ∃ d', routeItem cell route ex ctx d item = .ok d' ∧ d.Routes cell route ex ctx.epoch [item] d' ∧
      d.Alters cell d' := by
  unfold routeItem
  split
  · rename_i uncached
    have none : (cell.get d.world).target route ex.Alive item = none := by rw [Router.target, uncached]; rfl
    refine ⟨d, rfl, ⟨rfl, ?_, ?_⟩, fun _ _ start => start⟩
    · simp [Router.take_of_none none]
    · simp [Router.callsFor, Router.calls, none]
  · rename_i entry cached
    split
    · rename_i lives
      have goes := Router.target_eq_some_iff.mpr ⟨cached, lives⟩
      split
      · rename_i seen
        refine ⟨_, rfl, ⟨rfl, ?_, ?_⟩, fun p modify start => ?_⟩
        · simp [Router.take, goes, seen]
        · simp [Router.callsFor, Router.calls, goes, seen]
        · rw [Draft.world_update]
          exact modify _ _ start
      · rename_i unseen
        rw [if_neg (Nat.not_lt.mpr (low _ entry cached lives))]
        refine ⟨_, rfl, ⟨rfl, ?_, ?_⟩, fun p modify start => ?_⟩
        · simp [Router.take, goes, unseen]
        · simp [Router.callsFor, Router.calls, goes, unseen]
        · rw [Draft.world_update, Draft.world_scheduleNode, Draft.world_update]
          exact modify _ _ (modify _ _ start)
    · rename_i dead
      have none : (cell.get d.world).target route ex.Alive item = none := by
        simp [Router.target, cached, dead]
      refine ⟨d, rfl, ⟨rfl, ?_, ?_⟩, fun _ _ start => start⟩
      · simp [Router.take_of_none none]
      · simp [Router.callsFor, Router.calls, none]

theorem routeItems_routes (items : List T) (d : Draft W) (low : (cell.get d.world).Low ex) :
    ∃ d', items.foldlM (routeItem cell route ex ctx) d = .ok d' ∧
      d.Routes cell route ex ctx.epoch items d' ∧ d.Alters cell d' := by
  induction items generalizing d with
  | nil => exact ⟨d, rfl, .nil d _, fun _ _ start => start⟩
  | cons item rest ih =>
    obtain ⟨mid, first, routes, alters⟩ := @routeItem_routes W K T _ cell route ex ctx d item low
    obtain ⟨d', later, more, alters'⟩ := ih mid (routes.low low)
    refine ⟨d', ?_, routes.cons more, fun p modify start => alters' p modify (alters p modify start)⟩
    rw [List.foldlM_cons, first]
    exact later

/-! ### The three routers -/

/-- The answer of a cycle function that routes `items`. -/
structure Answers (cell : Cell W (Router K T)) (route : T → K) (ex : Executor W) (epoch : Nat)
    (items : List T) (answer : List (Effect W) × Outcome) : Prop where
  returns : ∃ control, answer.2 = .ret control
  routes : ∃ d d' : Draft W, answer.1 = d'.effects ∧ d.start = ex.world ∧
    cell.get d.world = cell.get ex.world ∧ d.calls = [] ∧
    d.Routes cell route ex epoch items d'

/-- A router that drains its source goes on from there. -/
def Draft.drained (source : Cell W (List T)) (w : W) : Draft W :=
  (Draft.new w).update (source.modify fun _ => [])

omit [DecidableEq K] in
theorem Draft.drained_left {source : Cell W (List T)} (apart : source.Apart cell) (w : W) :
    cell.get (Draft.drained source w).world = cell.get w := by
  rw [Draft.drained, Draft.world_update]
  exact apart _ _

theorem routeStream_returns {source : Cell W (List T)} (low : (cell.get ex.world).Low ex) :
    ∃ d', routeStream cell route source ex ctx = (d'.effects, .ret .unchanged) ∧
      (Draft.new ex.world).Routes cell route ex ctx.epoch (source.get ex.world) d' ∧
      (Draft.new ex.world).Alters cell d' := by
  obtain ⟨d', routed, routes, alters⟩ :=
    @routeItems_routes W K T _ cell route ex ctx (source.get ex.world) (.new ex.world) low
  exact ⟨d', by rw [routeStream, routed]; rfl, routes, alters⟩

theorem takeRouteStream_returns {source : Cell W (List T)} (apart : source.Apart cell)
    (low : (cell.get ex.world).Low ex) :
    ∃ d', takeRouteStream cell route source ex ctx = (d'.effects, .ret .unchanged) ∧
      (Draft.drained source ex.world).Routes cell route ex ctx.epoch (source.get ex.world) d' ∧
      (Draft.drained source ex.world).Alters cell d' := by
  rw [← Draft.drained_left apart] at low
  obtain ⟨d', routed, routes, alters⟩ :=
    @routeItems_routes W K T _ cell route ex ctx (source.get ex.world) (Draft.drained source ex.world) low
  refine ⟨d', ?_, routes, alters⟩
  rw [Draft.drained] at routed
  rw [takeRouteStream, routed]
  rfl

theorem routeStream_answers {source : Cell W (List T)} (low : (cell.get ex.world).Low ex) :
    Answers cell route ex ctx.epoch (source.get ex.world) (routeStream cell route source ex ctx) := by
  obtain ⟨d', answer, routes, -⟩ := @routeStream_returns W K T _ cell route ex ctx source low
  rw [answer]
  exact ⟨⟨_, rfl⟩, _, _, rfl, rfl, rfl, rfl, routes⟩

theorem takeRouteStream_answers {source : Cell W (List T)} (apart : source.Apart cell)
    (low : (cell.get ex.world).Low ex) :
    Answers cell route ex ctx.epoch (source.get ex.world) (takeRouteStream cell route source ex ctx) := by
  obtain ⟨d', answer, routes, -⟩ := @takeRouteStream_returns W K T _ cell route ex ctx source apart low
  rw [answer]
  exact ⟨⟨_, rfl⟩, _, _, rfl, rfl, Draft.drained_left apart _, rfl, routes⟩

namespace Channel

/-- The items that the loop over `poll_limit` receives. -/
def System.receives (threads : Nat → List (Action T) × List (Action T)) : Nat → System T → List T
  | 0, _ => []
  | n + 1, s =>
    match s.tryReceive (threads n) with
    | (.ok item, s) => item :: s.receives threads n
    | (.error _, _) => []

end Channel

variable {both : Cell W (Router K T × Channel.System T)}
  {threads : Nat → List (Channel.Action T) × List (Channel.Action T)}

theorem channelRouteLoop_routes (n : Nat) (d : Draft W) (low : (both.fst.get d.world).Low ex) :
    ∃ d' control, channelRouteLoop route both ex ctx threads n d = .ok (d', control) ∧
      d.Routes both.fst route ex ctx.epoch ((both.snd.get d.world).receives threads n) d' := by
  induction n generalizing d with
  | zero => exact ⟨d, _, rfl, .nil d _⟩
  | succ n ih =>
    rw [channelRouteLoop, Channel.System.receives]
    rcases received : (both.snd.get d.world).tryReceive (threads n) with ⟨result, s⟩
    have same : both.fst.get (d.update (both.snd.modify fun _ => s)).world = both.fst.get d.world := by simp
    have left : both.snd.get (d.update (both.snd.modify fun _ => s)).world = s := by simp
    have nothing : d.Routes both.fst route ex ctx.epoch [] (d.update (both.snd.modify fun _ => s)) :=
      ⟨rfl, same, by rw [Draft.calls_update]; exact (List.append_nil _).symm⟩
    rw [← same] at low
    cases result with
    | ok item =>
      obtain ⟨mid, first, routes, alters⟩ := @routeItem_routes W K T _ both.fst route ex ctx _ item low
      obtain ⟨d', control, later, more⟩ := ih mid (routes.low low)
      have kept : both.snd.get mid.world = s :=
        alters (fun w => both.snd.get w = s) (fun f w here => by rw [Cell.snd_modify_fst]; exact here) left
      rw [kept] at more
      refine ⟨d', control, ?_, ?_⟩
      · show (routeItem both.fst route ex ctx _ item).bind _ = _
        rw [first]
        exact later
      · have all := routes.cons more
        exact ⟨all.start, all.world.trans (by rw [same]), all.calls.trans (by rw [same, Draft.calls_update])⟩
    | error e => cases e <;> exact ⟨_, _, rfl, nothing⟩

theorem channelRouteStream_answers (pollLimit : Nat) (low : (both.fst.get ex.world).Low ex) :
    Answers both.fst route ex ctx.epoch ((both.snd.get ex.world).receives threads pollLimit)
      (channelRouteStream route both pollLimit threads ex ctx) := by
  obtain ⟨d', control, looped, routes⟩ :=
    @channelRouteLoop_routes W K T _ route ex ctx both threads pollLimit (.new ex.world) low
  rw [channelRouteStream, looped]
  exact ⟨⟨_, rfl⟩, _, _, rfl, rfl, rfl, rfl, routes⟩

/-! ## No router terminates a cycle -/

omit [DecidableEq K] in
theorem Draft.answer_goesOn {result : Except (Draft W) (Draft W × Control)}
    (goesOn : ∀ d control, result = .ok (d, control) → control ≠ .terminate) :
    (Draft.answer result).2 ≠ .ret .terminate := by
  rcases result with d | ⟨d, control⟩
  · simp [Draft.answer]
  · simpa [Draft.answer] using goesOn d control rfl

theorem routeStream_goesOn (source : Cell W (List T)) :
    (routeStream cell route source ex ctx).2 ≠ .ret .terminate := by
  apply Draft.answer_goesOn
  intro d control routed
  obtain ⟨d', -, same⟩ := Steps.map_ok routed
  cases same
  simp

theorem takeRouteStream_goesOn (source : Cell W (List T)) :
    (takeRouteStream cell route source ex ctx).2 ≠ .ret .terminate := by
  apply Draft.answer_goesOn
  intro d control routed
  obtain ⟨d', -, same⟩ := Steps.map_ok routed
  cases same
  simp

theorem channelRouteLoop_goesOn (n : Nat) {d d' : Draft W} {control : Control}
    (h : channelRouteLoop route both ex ctx threads n d = .ok (d', control)) : control ≠ .terminate := by
  induction n generalizing d with
  | zero =>
    cases h
    simp
  | succ n ih =>
    rw [channelRouteLoop] at h
    rcases received : (both.snd.get d.world).tryReceive (threads n) with ⟨result, s⟩
    simp only [received] at h
    cases result with
    | ok item =>
      obtain ⟨mid, -, later⟩ := Steps.bind_ok h
      exact ih later
    | error e =>
      cases e <;> cases h <;> simp

theorem channelRouteStream_goesOn (pollLimit : Nat) :
    (channelRouteStream route both pollLimit threads ex ctx).2 ≠ .ret .terminate :=
  Draft.answer_goesOn fun _ _ looped => channelRouteLoop_goesOn pollLimit looped

end Wavelet
