import Wavelet.Channel.Balance

/-!
# Items left in the channel of a router

Each send adds a notification, but the notifications that one drain takes make for one run
of the router, and a run takes `poll_limit` items at most. What is left has a wake-up of its
own as long as a drain takes no more notifications than a run takes items, or a run can
empty the channel.
-/

namespace Wavelet

open Relation

variable {W K T : Type}

/-! ## A channel router among threads -/

section Run

variable (both : Cell W (Router K T × Channel.System T)) (route : T → K) (capacity limit : Nat) (k : Key)

/-- An access of a thread to the channel; a notification that it comes to is pushed. -/
def Machine.access (m : Machine W) (action : Channel.Action T) : Option (Machine W) :=
  ((both.snd.get m.ex.world).step action).map fun (event, s) =>
    let ex := { m.ex with world := both.snd.modify (fun _ => s) m.ex.world }
    if event.Notifies then { m with ex := ex.pushNotification (.node k), waking := m.waking + 1 } else { m with ex }

/-- A drain takes no more notifications than a run takes items, or a run can empty the
channel; and the router does not bear the stamp of the coming epoch. -/
structure Roomy (m : Machine W) : Prop where
  limits : capacity ≤ limit ∨ m.ex.eventDriver.pollLimit ≤ limit
  unstamped : m.ex.Present k → ∀ ctx ∈ m.ex.graph.nodeWeight (m.ex.inner k).index, ctx.schedEpoch ≠
    (m.ex.epoch + 1) % 2 ^ 64

/-- Between two cycles, with no send on its way to a notification, there are items in the
channel of the router and nothing will wake it. -/
structure Stranded (m : Machine W) : Prop where
  idle : m.phase = .idle
  present : m.ex.Present k
  items : (both.snd.get m.ex.world).stored ≠ 0
  settled : (both.snd.get m.ex.world).notifying = 0
  asleep : (m.ex.inner k).index ∉ m.ex.notices ∧
    (m.ex.inner k).index ∉ m.ex.eventDriver.yieldDriver.map (·.index)

/-- Node `k` is run as a channel router, other code leaves its channel alone, and a cycle that
starts ends `Ok(Running)`. -/
def Fits [DecidableEq K] (m m' : Machine W) : Move W → Prop
  | .push _ | .wake | .cycle _ => True
  | .op prog op => prog.RoutesChannel both route limit k ∧ ∀ s, op.Keeps fun w => both.snd.get w = s
  | .next prog =>
    prog.RoutesChannel both route limit k ∧ (m'.phase = .idle → ∃ tickets, m.phase = .spawning tickets)

/-- The cycles of an executor with a channel router, built between two cycles or by a deferred
subgraph, interleaved with any threads that send to it and notify. Cycles start in `careful`
states only, and the sends find room in the notification queue. -/
inductive RouterRun [DecidableEq K] (careful : Machine W → Prop) : Machine W → Prop
  | built (prog : Program W) (index : NodeIndex) {m : Machine W} {ops : List (ExecOp W)} {ex : Executor W} :
      m.Reachable (fun _ _ => True) → (m.phase = .idle ∨ ∃ tickets, m.phase = .spawning tickets) →
        m.ex.inners.length = k →
      channelRouteStreamNode both capacity index = some ops → m.ex.execOps prog ops = .ok ex →
      RouterRun careful { m with ex }
  | exec (move : Move W) {m m' : Machine W} : RouterRun careful m → Fits both route limit k m m' move →
      ((∃ input, move = .cycle input) → careful m) → m.step move = some m' → RouterRun careful m'
  | access (action : Channel.Action T) {m m' : Machine W} : RouterRun careful m →
      (action.Sends ∨ action = .dropReceiver ∧ ¬ m.ex.Present k) →
      (∀ event s, (both.snd.get m.ex.world).step action = some (event, s) → event.Notifies →
        ¬ m.ex.eventDriver.notifications.Full) →
      m.access both k action = some m' → RouterRun careful m'

variable (r : NodeIndex)

/-- Every item has a notification in the queue or to come, but for `slack` ones if the router
is queued. -/
structure Backed (slack : Nat) (ex : Executor W) : Prop where
  capacity : (both.snd.get ex.world).chan.queue.capacity = capacity
  receiver : (both.snd.get ex.world).receiver = .idle
  items : (both.snd.get ex.world).stored ≤ ex.notices.count r + (both.snd.get ex.world).notifying ∨
    r ∈ ex.scheduler.entries ∧
      (both.snd.get ex.world).stored ≤ ex.notices.count r + (both.snd.get ex.world).notifying + slack

/-- The items that the notifications taken by the drain stand for. -/
def drained (left : Nat) : Nat := if capacity ≤ limit then limit else limit - left

def BackedIn (ex : Executor W) : Phase → Prop
  | .idle | .spawning _ => Backed both capacity r 0 ex
  | .draining _ left =>
    (capacity ≤ limit ∨ left ≤ limit) ∧ Backed both capacity r (drained capacity limit left) ex
  | .polling _ | .asking _ => Backed both capacity r limit ex
  | .running _ => r ∈ ex.marks ∨ Backed both capacity r limit ex
  | .sweeping => r ∈ ex.marks ∨ Backed both capacity r 0 ex

/-- What holds of an executor with a router at `r`. -/
structure Attended (m : Machine W) : Prop where
  orderly : m.Orderly
  built : k < m.ex.inners.length
  index : (m.ex.inner k).index = r
  seat : ∀ i, m.ex.keyAt i = some k → i = r
  fresh : m.ex.keyAt r = some k → ∀ input left, m.phase = .draining input left →
    ∀ ctx, m.ex.graph.nodeWeight r = some ctx → ctx.schedEpoch = m.ex.epoch → r ∈ m.ex.scheduler.entries
  backed : m.ex.keyAt r = some k → BackedIn both capacity limit r m.ex m.phase

variable {both route capacity limit k r}

theorem drained_le (left : Nat) : drained capacity limit left ≤ limit := by
  unfold drained
  split
  · exact Nat.le_refl _
  · exact Nat.sub_le ..

theorem Backed.mono {a b : Nat} {ex : Executor W} (less : a ≤ b) (backed : Backed both capacity r a ex) :
    Backed both capacity r b ex := by
  refine ⟨backed.capacity, backed.receiver, backed.items.imp id fun ⟨queued, few⟩ => ⟨queued, ?_⟩⟩
  omega

theorem Backed.minds {slack : Nat} {ex ex' : Executor W} (backed : Backed both capacity r slack ex)
    (minds : Executor.Minds both r ex ex') : Backed both capacity r slack ex' := by
  refine ⟨minds.capacity.trans backed.capacity, minds.receiver.trans backed.receiver, ?_⟩
  have items := minds.items
  rcases backed.items with all | ⟨queued, few⟩
  · left
    omega
  · refine .inr ⟨minds.queued queued, ?_⟩
    omega

theorem BackedIn.minds {phase : Phase} {ex ex' : Executor W}
    (backed : BackedIn both capacity limit r ex phase) (minds : Executor.Minds both r ex ex') :
    BackedIn both capacity limit r ex' phase := by
  cases phase with
  | idle | polling | asking | spawning => exact Backed.minds backed minds
  | draining input left => exact ⟨backed.1, backed.2.minds minds⟩
  | running | sweeping => exact Or.imp minds.marked (fun still => Backed.minds still minds) backed

/-! ## One step -/

theorem access_spec {m m' : Machine W} {action : Channel.Action T} (h : m.access both k action = some m') :
    ∃ event s, (both.snd.get m.ex.world).step action = some (event, s) ∧ m'.phase = m.phase ∧
      m'.ex = if event.Notifies then
        ({ m.ex with world := both.snd.modify (fun _ => s) m.ex.world } :
          Executor W).pushNotification (.node k)
      else { m.ex with world := both.snd.modify (fun _ => s) m.ex.world } := by
  obtain ⟨⟨event, s⟩, stepped, rfl⟩ := Option.map_eq_some_iff.mp h
  refine ⟨event, s, stepped, ?_, ?_⟩
  · dsimp only
    split <;> rfl
  · dsimp only
    split <;> rfl

/-- An access is program code. -/
theorem access_run {m m' : Machine W} {action : Channel.Action T} (h : m.access both k action = some m') :
    m'.phase = m.phase ∧ Executor.HandleRun m.ex m'.ex := by
  obtain ⟨event, s, -, phase, ex⟩ := access_spec h
  have changed : Executor.HandleRun m.ex { m.ex with world := both.snd.modify (fun _ => s) m.ex.world } :=
    .single (.update _)
  refine ⟨phase, ?_⟩
  rw [ex]
  split
  · exact changed.trans (Executor.pushNotification_run ..)
  · exact changed

theorem access_minds {m m' : Machine W} {action : Channel.Action T} (h : m.access both k action = some m')
    (index : (m.ex.inner k).index = r) (sends : action.Sends)
    (room : ∀ event s, (both.snd.get m.ex.world).step action = some (event, s) → event.Notifies →
      ¬ m.ex.eventDriver.notifications.Full) : Executor.Minds both r m.ex m'.ex := by
  have code := (access_run h).2.code
  obtain ⟨event, s, stepped, -, ex⟩ := access_spec h
  have balanced := Channel.System.Balanced.step sends stepped
  have world : both.snd.get m'.ex.world = s := by
    rw [ex]
    split
    · rw [Executor.world_pushNotification]
      exact both.snd.get_modify (fun _ => s) m.ex.world
    · exact both.snd.get_modify (fun _ => s) m.ex.world
  refine ⟨by rw [world]; exact balanced.capacity, by rw [world]; exact balanced.receiver,
    Executor.mem_entries_code code,
    ((Executor.frame_of_run code).marks.map Ref.index).mem, ?_⟩
  have items := balanced.items
  have counted : m'.ex.notices.count r = m.ex.notices.count r + if event.Notifies then 1 else 0 := by
    rw [ex]
    split
    · rename_i notifies
      have free :
          ¬ ({ m.ex with world := both.snd.modify (fun _ => s) m.ex.world } : Executor
            W).eventDriver.notifications.Full :=
        room event s stepped notifies
      rw [Executor.notices_pushNotification free, List.count_append]
      have named :
          (({ m.ex with world := both.snd.modify (fun _ => s) m.ex.world } : Executor W).ref
            (.node k)).index = r := index
      rw [named, List.count_singleton_self]
      rfl
    · rfl
  rw [world, counted]
  omega

/-- The drain takes a notification; one of the router's is one item less to come, and queues
the router. -/
theorem backed_of_take {input : CycleInput} {left : Nat} {m m' : Machine W}
    (h : m.takeNotification input left = some m') (present : m.ex.keyAt r = some k)
    (fresh : ∀ ctx, m.ex.graph.nodeWeight r = some ctx → ctx.schedEpoch = m.ex.epoch →
      r ∈ m.ex.scheduler.entries) (limits : capacity ≤ limit ∨ left + 1 ≤ limit)
    (backed : Backed both capacity r (drained capacity limit (left + 1)) m.ex) :
    BackedIn both capacity limit r m'.ex m'.phase := by
  unfold Machine.takeNotification at h
  split at h
  · cases h
    exact backed.mono (drained_le _)
  · rename_i note queue popped
    obtain ⟨ex, fired, rfl⟩ := Option.map_eq_some_iff.mp h
    replace fired := Machine.toOption_eq_some.mp fired
    have items := (BoundedQueue.pop_eq_some_iff.mp popped).1
    have notices : m.ex.notices = note.index :: queue.items.map (·.index) := by
      rw [Executor.notices, items, List.map_cons]
    have minds :
        Executor.Minds both r { m.ex with eventDriver := { m.ex.eventDriver with notifications := queue } } ex :=
      .of_fire fired
    refine ⟨limits.imp id Nat.le_of_succ_le, ?_⟩
    by_cases own : note.index = r
    · -- the router is queued, and each of the notifications taken stands for one item
      refine ⟨minds.capacity.trans backed.capacity, minds.receiver.trans backed.receiver, .inr ⟨?_, ?_⟩⟩
      · apply (Machine.fire_scheduled fired fresh).2 own
        intro vacant
        cases (present.symm.trans vacant : some k = none)
      · have moved := minds.items
        have stored : (both.snd.get m.ex.world).stored ≤
            m.ex.notices.count r + (both.snd.get m.ex.world).notifying + drained capacity limit
              (left + 1) := by
          rcases backed.items with all | ⟨-, few⟩ <;> omega
        rw [notices, own, List.count_cons_self] at stored
        have bounded := (both.snd.get ex.world).chan.queue.bounded
        have full := minds.capacity.trans backed.capacity
        unfold Channel.System.stored at *
        unfold Executor.notices at *
        unfold drained at *
        dsimp only at *
        split at stored <;> split <;> omega
    · have less : drained capacity limit (left + 1) ≤ drained capacity limit left := by
        unfold drained
        split <;> omega
      have skips :
          Executor.Minds both r
          m.ex { m.ex with eventDriver := { m.ex.eventDriver with notifications := queue } } := by
        refine .of_same rfl ?_ id id
        rw [notices, List.count_cons_of_ne own]
        exact Nat.le_refl _
      exact (backed.mono less).minds (skips.trans minds)

/-- The other sources and the I/O poll. -/
theorem minds_of_others {now : Nat} {ex ex' : Executor W}
    (h : ex.pollYields.bind (Executor.pollTimers now) = .ok ex') : Executor.Minds both r ex ex' := by
  obtain ⟨mid, yields, timers⟩ := Steps.bind_ok h
  have first : Executor.Minds both r ex mid :=
    Executor.drainYields_inv (p := Executor.Minds both r ex)
      (fun s d same minds => minds.trans (.of_driver s same))
      (fun _ _ _ _ fired minds => minds.trans (.of_fire fired)) yields (.refl ex)
  unfold Executor.pollTimers at timers
  split at timers
  · cases timers
    exact first
  · exact Executor.expireTimers_inv (p := Executor.Minds both r ex)
      (fun s d same minds => minds.trans (.of_driver s same))
      (fun _ _ _ _ fired minds => minds.trans (.of_fire fired)) timers first

theorem minds_of_askIo {input : CycleInput} {now : CycleTime} {ex ex' : Executor W}
    (h : ex.askIo input = .ok (some now, ex')) : Executor.Minds both r ex ex' := by
  rcases Executor.askIo_ok h with ⟨no, -⟩ | ⟨_, -, -, rfl⟩ | ⟨_, io, events, -, -, -, polled⟩
  · cases no
  · exact .refl ex'
  · exact Executor.pollIo_inv (p := Executor.Minds both r ex)
      (fun _ _ _ fired minds => minds.trans (.of_fire fired)) polled
      (.of_driver ex rfl)

theorem Attended.moved {m m' : Machine W} (attended : Attended both capacity limit k r m)
    (orderly : m'.Orderly) (path : Executor.Path m.ex m'.ex)
    (fresh : m.ex.keyAt r = some k → ∀ input left, m'.phase = .draining input left →
      ∀ ctx, m'.ex.graph.nodeWeight r = some ctx → ctx.schedEpoch = m'.ex.epoch → r ∈ m'.ex.scheduler.entries)
    (backed : m.ex.keyAt r = some k → m'.ex.keyAt r = some k →
      BackedIn both capacity limit r m'.ex m'.phase) :
    Attended both capacity limit k r m' where
  orderly := orderly
  built := (path.seated attended.built).built
  index := (path.seated attended.built).index.trans attended.index
  seat i here := attended.seat i ((path.seated attended.built).stays i here)
  fresh present := fresh ((path.seated attended.built).stays r present)
  backed present := backed ((path.seated attended.built).stays r present) present

/-- Program code that minds the router. -/
theorem Attended.handles {m : Machine W} (attended : Attended both capacity limit k r m) {ex : Executor W}
    (run : Executor.HandleRun m.ex ex) (minds : ex.keyAt r = some k → Executor.Minds both r m.ex ex)
    (waking : Nat) :
    Attended both capacity limit k r ⟨ex, m.phase, waking⟩ := by
  have same := Executor.scheduler_of_handleRun run
  have frame := Executor.frame_of_run run.code
  apply attended.moved ⟨_, _⟩ (Executor.CodeRun.path run.code)
  · intro present input left here ctx there seen
    replace there : ex.graph.nodeWeight r = some ctx := there
    replace seen : ctx.schedEpoch = ex.epoch := seen
    rw [frame.graph] at there
    rw [frame.epoch] at seen
    show r ∈ ex.scheduler.entries
    rw [same]
    exact attended.fresh present input left here ctx there seen
  · intro before present
    exact (attended.backed before).minds (minds present)
  · show ex.scheduler.WF
    rw [same]
    exact attended.orderly.wf
  · intro here
    show ex.scheduler.AtRest
    rw [same]
    exact attended.orderly.rests here

/-- A router that was just built. -/
theorem Attended.start {prog : Program W} {m : Machine W} (orderly : m.Orderly)
    (occupants : ∀ i j, m.ex.keyAt i = some j → j < m.ex.inners.length)
    (here : m.phase = .idle ∨ ∃ tickets, m.phase = .spawning tickets)
    (newest : m.ex.inners.length = k) {index : NodeIndex} {ops : List (ExecOp W)}
    (makes : channelRouteStreamNode both capacity index = some ops) {ex : Executor W}
    (h : m.ex.execOps prog ops = .ok ex) : Attended both capacity limit k index { m with ex } := by
  have path := Executor.execOps_path prog h
  obtain ⟨s, made, rfl⟩ := Option.map_eq_some_iff.mp makes
  obtain ⟨chan, opened, rfl⟩ := Option.map_eq_some_iff.mp made
  have empty : chan.queue = .empty capacity := by
    unfold Channel.new at opened
    split at opened <;> cases opened
    rfl
  obtain ⟨mid, updated, rest⟩ := Steps.bind_ok' h
  obtain ⟨ex', builds, same⟩ := Steps.bind_ok' rest
  cases same
  cases updated
  obtain ⟨depth, graph, handles, -, -, edges, rfl, -⟩ := Executor.build_ok builds
  subst newest
  have slots := Executor.keyAt_insertNode edges
  have rests : m.phase ≠ .sweeping := by
    rcases here with idle | ⟨tickets, spawning⟩
    · rw [idle]
      exact fun no => by cases no
    · rw [spawning]
      exact fun no => by cases no
  constructor
  case orderly => exact ⟨Executor.Path.schedulerWF path orderly.wf, fun no => absurd no rests⟩
  case built =>
    show m.ex.inners.length < (m.ex.inners ++ [_]).length
    rw [List.length_append]
    exact Nat.lt_succ_self _
  case index =>
    have placed : ∀ ex : Executor W, (ex.insertNode { index := index } depth graph).inner ex.inners.length =
        ⟨index, depth, 0⟩ := by
      intro ex
      rw [Executor.inner_insertNode, if_pos rfl]
    exact congrArg NodeInner.index (placed _)
  case seat =>
    intro i there
    replace there := (slots i).symm.trans there
    split at there
    · assumption
    · exact absurd (occupants i _ there) (Nat.lt_irrefl _)
  case fresh =>
    intro _ input left no
    rcases here with idle | ⟨tickets, spawning⟩
    · cases idle.symm.trans no
    · cases spawning.symm.trans no
  case backed =>
    intro _
    have world : ∀ w : W, both.snd.get (both.modify (fun data =>
        ({ data.1 with cache := ∅ }, (⟨chan, [0], 1, [], .idle, [], [], 0⟩ : Channel.System T))) w) =
          ⟨chan, [0], 1, [], .idle, [], [], 0⟩ := by
      intro w
      show (both.get (both.modify _ w)).2 = _
      rw [Cell.get_modify]
    have fresh : ∀ ex : Executor W, both.snd.get ex.world =
        (⟨chan, [0], 1, [], .idle, [], [], 0⟩ : Channel.System T) →
        Backed both capacity index 0 ex := by
      intro ex holds
      refine ⟨by rw [holds]; exact congrArg BoundedQueue.capacity empty, by rw [holds], .inl ?_⟩
      rw [holds]
      show chan.queue.items.length ≤ _
      rw [empty]
      exact Nat.zero_le _
    rcases here with idle | ⟨tickets, spawning⟩
    · rw [show Machine.phase _ = _ from idle]
      exact fresh _ (world _)
    · rw [show Machine.phase _ = _ from spawning]
      exact fresh _ (world _)

theorem Attended.access {m m' : Machine W} {action : Channel.Action T}
    (attended : Attended both capacity limit k r m)
    (allowed : action.Sends ∨ action = .dropReceiver ∧ ¬ m.ex.Present k)
    (room : ∀ event s, (both.snd.get m.ex.world).step action = some (event, s) → event.Notifies →
      ¬ m.ex.eventDriver.notifications.Full)
    (h : m.access both k action = some m') : Attended both capacity limit k r m' := by
  obtain ⟨phase, run⟩ := access_run h
  have handled := attended.handles run (fun present => ?_) m'.waking
  · rw [← phase] at handled
    exact handled
  · rcases allowed with sends | ⟨-, gone⟩
    · exact access_minds h attended.index sends room
    · have before := ((Executor.CodeRun.path run.code).seated attended.built).stays r present
      rw [Executor.Present, attended.index] at gone
      exact absurd before gone

section Program

variable [DecidableEq K] {prog : Program W} {route : T → K}

/-- A run of another node. -/
theorem minds_of_run (routes : prog.RoutesChannel both route limit k) {now : CycleTime}
    {i : NodeIndex} {s : Scheduler} {ex mid : Executor W} {run : Run}
    (popped : ex.scheduler.Popped i s) (other : i ≠ r)
    (ran : Executor.graphCycle prog now i { ex with scheduler := s } = .ok (run, mid))
    (stranger : run.node ≠ k) :
    Executor.Minds both r ex mid := by
  have spared : both.snd.get mid.world = both.snd.get ex.world :=
    Executor.graphCycle_world (p := fun w => both.snd.get w = both.snd.get ex.world)
      (routes.spares.drops _) ran
      (routes.spares.runs _ _ stranger) rfl
  have minds : Executor.Minds both r { ex with scheduler := s } mid :=
    .of_code (Executor.graphCycle_run prog ran) spared
  have pops : Executor.Minds both r ex { ex with scheduler := s } :=
    ⟨rfl, rfl, fun queued => ((popped.mem_iff r).mp queued).resolve_right (Ne.symm other), id, Nat.le_refl _⟩
  exact pops.trans minds

/-- One turn of the node loop that goes on. A run of the router takes an item for each
notification that was taken, or empties the channel. -/
theorem backed_of_turn (routes : prog.RoutesChannel both route limit k) {now : CycleTime}
    {ex ex' : Executor W} (h : Executor.nodeStep prog now ex = .ok (.again ex'))
    (wf : ex.scheduler.WF) (present : ex.keyAt r = some k) (seat : ∀ i, ex.keyAt i = some k → i = r)
    (backed : r ∈ ex.marks ∨ Backed both capacity r limit ex) :
    r ∈ ex'.marks ∨ Backed both capacity r limit ex' := by
  obtain ⟨i, s, run, mid, popped, ran, -, handled⟩ := Executor.nodeStep_again prog h
  have after : Executor.Minds both r (mid.recordRun run) ex' := .of_handleControl handled
  have recorded : Executor.Minds both r mid (mid.recordRun run) := .of_same rfl (Nat.le_refl _) id id
  have code := Executor.graphCycle_run prog ran
  rcases backed with marked | backed
  · have still : r ∈ mid.marks := ((Executor.frame_of_run code).marks.map Ref.index).mem marked
    exact .inl (after.marked (recorded.marked still))
  · obtain ⟨ctx, there, index, node, -⟩ := Executor.graphCycle_ok prog ran
    have occupant : ex.keyAt i = some run.node := by
      rw [node]
      exact congrArg (Option.map _) there
    by_cases own : i = r
    · rw [own, present] at occupant
      have self : run.node = k := (Option.some.inj occupant).symm
      have sweeps : run.verdict.control = .sweep → r ∈ ex'.marks := by
        intro sweep
        have marked := Executor.Minds.marked_of_sweep handled sweep
        rwa [index, own] at marked
      rcases Executor.served_of_run routes ran self backed.receiver with sweep | served
      · exact .inl (sweeps sweep)
      · rcases served.took with sweep | ⟨-, few⟩
        · exact .inl (sweeps sweep)
        · have capacity' : (both.snd.get mid.world).chan.queue.capacity = capacity :=
            served.capacity.trans backed.capacity
          have grows : ex.notices.count r ≤ mid.notices.count r :=
            (Executor.notices_of_code code).sublist.count_le r
          have least : (both.snd.get mid.world).stored ≤ mid.notices.count r +
              (both.snd.get mid.world).notifying := by
            have before : (both.snd.get ex.world).stored ≤ ex.notices.count r +
                (both.snd.get ex.world).notifying + limit := by
              rcases backed.items with all | ⟨-, most⟩ <;> omega
            rcases few with few | few
            · omega
            · have few : (both.snd.get mid.world).stored + limit + (both.snd.get ex.world).notifying ≤
                (both.snd.get ex.world).stored + (both.snd.get mid.world).notifying := few
              omega
          have served' : Backed both capacity r limit mid := ⟨capacity', served.receiver, .inl least⟩
          exact .inr (served'.minds (recorded.trans after))
    · right
      have stranger : run.node ≠ k := fun self => own (seat i (by rw [occupant, self]))
      have turn := minds_of_run routes (Scheduler.pop_some wf popped) own ran stranger
      exact backed.minds ((turn.trans recorded).trans after)

/-- A mark is taken; unless it is the router's, the router keeps its own. -/
theorem backed_of_removal (routes : prog.RoutesChannel both route limit k) {mark : Ref}
    {rest : List Ref} {ex : Executor W} (front : ex.gc = mark :: rest)
    (present : (Executor.removeNode prog { ex with gc := rest } mark.index).keyAt r = some k)
    (backed : r ∈ ex.marks ∨ Backed both capacity r 0 ex) :
    r ∈ (Executor.removeNode prog { ex with gc := rest } mark.index).marks ∨
      Backed both capacity r 0 (Executor.removeNode prog { ex with gc := rest } mark.index) := by
  have other : r ≠ mark.index := by
    intro same
    rw [Executor.slots_removeNode, if_pos same] at present
    cases present
  have grows :=
    Executor.marks_mono (@Executor.marks_removeNode W prog { ex with gc := rest } mark.index) (i := r)
  have left : r ∈ ex.marks → r ∈ (Executor.removeNode prog { ex with gc := rest } mark.index).marks := by
    intro marked
    apply grows
    rw [Executor.marks, front, List.map_cons] at marked
    exact (List.mem_cons.mp marked).resolve_left other
  refine backed.imp left fun backed => backed.minds ?_
  have spared : both.snd.get (Executor.removeNode prog { ex with gc := rest } mark.index).world =
      both.snd.get ex.world :=
    Executor.removeNode_world (p := fun w => both.snd.get w = both.snd.get ex.world)
      (routes.spares.drops _) rfl
  cases there : ({ ex with gc := rest } : Executor W).keyAt mark.index with
  | none =>
    rw [Executor.removeNode_vacant there] at left ⊢
    exact .of_same rfl (Nat.le_refl _) id left
  | some j =>
    have code := (@Executor.removeNode_run W prog _ _ _ there).code
    have notices := (Executor.notices_of_code code).sublist.count_le r
    exact .of_same spared notices (fun queued => Executor.mem_entries_code code (by exact queued)) left

theorem minds_of_runSpawn (routes : prog.RoutesChannel both route limit k) {ticket : Nat} {rest : List Nat}
    {ex ex' : Executor W} (h : Executor.runSpawn prog { ex with deferredSpawns := rest } ticket = .ok ex') :
    Executor.Minds both r ex ex' := by
  obtain ⟨built, ops, rfl⟩ := Steps.map_ok h
  have minds : Executor.Minds both r ex built ∧ both.snd.get built.world = both.snd.get ex.world := by
    refine Steps.foldlM_inv (p := fun s : Executor W => Executor.Minds both r ex s ∧
        both.snd.get s.world = both.snd.get ex.world)
      (fun s op s' member applied ⟨minds, same⟩ => ?_) ops ⟨.of_same rfl (Nat.le_refl _) id id, rfl⟩
    have spared : both.snd.get s'.world = both.snd.get ex.world :=
      Executor.execOp_world (p := fun w => both.snd.get w = both.snd.get ex.world) (routes.spares.drops _)
        (routes.spares.spawns _ _ _ op member) applied same
    exact ⟨minds.trans (.of_execOp applied (spared.trans same.symm)), spared⟩
  have dropped : both.snd.get (built.dropOwner prog (.spawn ticket)).world = both.snd.get built.world :=
    Executor.dropOwner_world (p := fun w => both.snd.get w = both.snd.get built.world)
      (routes.spares.drops _) _ rfl
  exact minds.1.trans (.of_code (Executor.dropOwner_run prog _ _).code dropped)

/-- One step of the executor in a cycle that goes on. -/
theorem backed_of_next (routes : prog.RoutesChannel both route limit k) {m m' : Machine W}
    (h : m.next prog = some m') (goesOn : m'.phase = .idle → ∃ tickets, m.phase = .spawning tickets)
    (attended : Attended both capacity limit k r m) (before : m.ex.keyAt r = some k)
    (present : m'.ex.keyAt r = some k) : BackedIn both capacity limit r m'.ex m'.phase := by
  have backed := attended.backed before
  unfold Machine.next at h
  split at h
  · cases h
  · rename_i here
    rw [here] at backed
    cases h
    exact backed.2.mono (drained_le _)
  · rename_i input left here
    rw [here] at backed
    exact backed_of_take h before (attended.fresh before _ _ here) backed.1 backed.2
  · rename_i here
    rw [here] at backed
    obtain ⟨ex, polled, rfl⟩ := Option.map_eq_some_iff.mp h
    exact Backed.minds backed (minds_of_others (Machine.toOption_eq_some.mp polled))
  · rename_i here
    rw [here] at backed
    obtain ⟨⟨t, ex⟩, asked, same⟩ := Option.map_eq_some_iff.mp h
    cases t with
    | none =>
      cases same
      obtain ⟨tickets, no⟩ := goesOn rfl
      cases here.symm.trans no
    | some now =>
      cases same
      exact .inr (Backed.minds backed (minds_of_askIo (Machine.toOption_eq_some.mp asked)))
  · rename_i now here
    rw [here] at backed
    obtain ⟨turn, turned, same⟩ := Option.map_eq_some_iff.mp h
    replace turned := Machine.toOption_eq_some.mp turned
    cases turn with
    | finished ex =>
      cases same
      obtain ⟨s, popped, rfl⟩ := Executor.nodeStep_finished prog turned
      have none := (Scheduler.pop_none attended.orderly.wf popped).2
      refine Or.imp id (fun backed => ?_) backed
      refine ⟨backed.capacity, backed.receiver, .inl ?_⟩
      rcases backed.items with all | ⟨queued, -⟩
      · exact all
      · rw [none] at queued
        cases queued
    | terminated ex =>
      cases same
      obtain ⟨tickets, no⟩ := goesOn rfl
      cases here.symm.trans no
    | again ex =>
      cases same
      rw [here]
      exact backed_of_turn routes turned attended.orderly.wf before attended.seat backed
  · rename_i here
    rw [here] at backed
    split at h
    · rename_i empty
      cases h
      refine Or.resolve_left backed fun marked => ?_
      rw [Executor.marks, empty] at marked
      cases marked
    · rename_i mark rest front
      cases h
      rw [here]
      exact backed_of_removal routes front present backed
  · rename_i here
    rw [here] at backed
    cases h
    exact backed
  · rename_i ticket rest here
    rw [here] at backed
    obtain ⟨ex, spawned, rfl⟩ := Option.map_eq_some_iff.mp h
    exact Backed.minds backed (minds_of_runSpawn routes (Machine.toOption_eq_some.mp spawned))

/-! ## Whole runs -/

theorem Attended.exec {m m' : Machine W} {move : Move W} (attended : Attended both capacity limit k r m)
    (fits : Fits both route limit k m m' move)
    (careful : (∃ input, move = .cycle input) → Roomy capacity limit k m)
    (h : m.step move = some m') : Attended both capacity limit k r m' := by
  cases move with
  | push t =>
    cases h
    have run := Executor.pushNotification_run m.ex t
    exact attended.handles run (fun _ => .of_code run.code (by rw [Executor.world_pushNotification])) _
  | wake =>
    simp only [Machine.step] at h
    split at h
    · cases h
      exact attended.handles (.single .wake) (fun _ => .of_same rfl (Nat.le_refl _) id id) _
    · cases h
  | op prog op =>
    obtain ⟨routes, keeps⟩ := fits
    have run := Machine.step_path h attended.orderly
    simp only [Machine.step] at h
    split at h
    · rename_i idle
      obtain ⟨ex, applied, rfl⟩ := Option.map_eq_some_iff.mp h
      replace applied := Machine.toOption_eq_some.mp applied
      have spared : both.snd.get ex.world = both.snd.get m.ex.world :=
        Executor.execOp_world (p := fun w => both.snd.get w = both.snd.get m.ex.world)
          (routes.spares.drops _) (keeps _) applied rfl
      apply attended.moved run.1 run.2
      · intro _ input left here
        cases (show m.phase = _ from idle).symm.trans here
      · intro before _
        exact (attended.backed before).minds (.of_execOp applied spared)
    · cases h
  | cycle input =>
    have run := Machine.step_path h attended.orderly
    have roomy := careful ⟨input, rfl⟩
    simp only [Machine.step] at h
    split at h
    · rename_i idle
      cases h
      apply attended.moved run.1 run.2
      · intro present _ _ _ ctx there seen
        have here : m.ex.Present k := by
          rw [Executor.Present, attended.index]
          exact present
        have coming := roomy.unstamped here ctx (by rw [attended.index]; exact there)
        exact absurd seen coming
      · intro before _
        have backed := attended.backed before
        rw [show m.phase = _ from idle] at backed
        have begun : Backed both capacity r 0 m.ex.beginCycle :=
          backed.minds (.of_same rfl (Nat.le_refl _) id id)
        exact ⟨roomy.limits, begun.mono (Nat.zero_le _)⟩
    · cases h
  | next prog =>
    have run := Machine.step_path h attended.orderly
    apply attended.moved run.1 run.2
    · intro present input left here
      obtain ⟨before, note, queue, -, fired⟩ := Machine.next_draining h here
      exact (Machine.fire_scheduled fired (attended.fresh present input (left + 1) before)).1
    · exact backed_of_next fits.1 h fits.2 attended

theorem RouterRun.attended {m : Machine W}
    (run : RouterRun both route capacity limit k (Roomy capacity limit k) m) :
    ∃ r, Attended both capacity limit k r m := by
  induction run with
  | built prog index reached here newest makes h =>
    obtain ⟨cfg, mode, world, path⟩ := reached.path
    exact ⟨index, .start reached.orderly (Executor.Path.occupants path fun _ _ no => by cases no) here newest makes h⟩
  | exec move _ fits careful h ih =>
    obtain ⟨r, attended⟩ := ih
    exact ⟨r, attended.exec fits careful h⟩
  | access action _ allowed room h ih =>
    obtain ⟨r, attended⟩ := ih
    exact ⟨r, attended.access allowed room h⟩

/-- In a run whose cycles start with room, the router is never stranded: each item that is
left has a notification in the queue, or on its way there. -/
theorem channel_router_wakes {m : Machine W}
    (run : RouterRun both route capacity limit k (Roomy capacity limit k) m) :
    ¬ Stranded both k m ∧ (m.phase = .idle → m.ex.Present k →
      (both.snd.get m.ex.world).stored ≤ m.ex.notices.count (m.ex.inner k).index +
      (both.snd.get m.ex.world).notifying) := by
  obtain ⟨r, attended⟩ := run.attended
  have few : m.phase = .idle → m.ex.Present k →
      (both.snd.get m.ex.world).stored ≤ m.ex.notices.count (m.ex.inner k).index +
      (both.snd.get m.ex.world).notifying := by
    intro idle present
    rw [Executor.Present, attended.index] at present
    have backed := attended.backed present
    rw [idle] at backed
    rw [attended.index]
    rcases backed.items with all | ⟨-, all⟩
    · exact all
    · exact all
  refine ⟨fun stranded => ?_, few⟩
  have least := few stranded.idle stranded.present
  rw [stranded.settled, List.count_eq_zero_of_not_mem stranded.asleep.1] at least
  exact stranded.items (Nat.le_zero.mp least)

end Program
end Run

/-! ## Two sends -/

/-- A move of the executor inside a cycle, or an access to the channel. -/
inductive RouterMove (T : Type)
  | cycle (input : CycleInput)
  | next
  | access (action : Channel.Action T)

instance (capacity limit : Nat) (k : Key) (m : Machine W) : Decidable (Roomy capacity limit k m) :=
  decidable_of_iff ((capacity ≤ limit ∨ m.ex.eventDriver.pollLimit ≤ limit) ∧ (m.ex.Present k →
      ∀ ctx ∈ m.ex.graph.nodeWeight (m.ex.inner k).index, ctx.schedEpoch ≠ (m.ex.epoch + 1) % 2 ^ 64))
    ⟨fun h => ⟨h.1, h.2⟩, fun h => ⟨h.limits, h.unstamped⟩⟩

def Phase.Idle : Phase → Bool
  | .idle => true
  | _ => false

def Phase.Spawning : Phase → Bool
  | .spawning _ => true
  | _ => false

/-- Makes the move if a router's run allows it. -/
def routerStep (prog : Program W) (both : Cell W (Router K T × Channel.System T))
    (check : Machine W → Bool) (k : Key) (m : Machine W) :
    RouterMove T → Option (Machine W)
  | .cycle input => if check m then m.step (.cycle input) else none
  | .next => (m.step (.next prog)).bind fun m' => if m'.phase.Idle && !m.phase.Spawning then none else some m'
  | .access action =>
    if action.Sends ∧ ¬ m.ex.eventDriver.notifications.Full then m.access both k action else none

theorem routerStep_run [DecidableEq K] {prog : Program W}
    {both : Cell W (Router K T × Channel.System T)} {route : T → K} {capacity limit : Nat} {k : Key}
    {careful : Machine W → Prop} {check : Machine W → Bool}
    (routes : prog.RoutesChannel both route limit k) (sound : ∀ m, check m = true → careful m)
    {m m' : Machine W} (run : RouterRun both route capacity limit k careful m) {move : RouterMove T}
    (h : routerStep prog both check k m move = some m') :
    RouterRun both route capacity limit k careful m' := by
  cases move with
  | cycle input =>
    simp only [routerStep] at h
    split at h
    · rename_i checked
      exact run.exec (.cycle input) trivial (fun _ => sound m checked) h
    · cases h
  | next =>
    obtain ⟨last, stepped, rest⟩ := Option.bind_eq_some_iff.mp h
    split at rest
    · cases rest
    · rename_i goesOn
      cases rest
      refine run.exec (.next prog) ⟨routes, fun idle => ?_⟩ (fun ⟨_, no⟩ => by cases no) stepped
      rw [idle] at goesOn
      cases here : m.phase with
      | spawning tickets => exact ⟨tickets, rfl⟩
      | _ =>
        rw [here] at goesOn
        exact absurd rfl goesOn
  | access action =>
    simp only [routerStep] at h
    split at h
    · rename_i allowed
      exact run.access action (.inl allowed.1) (fun _ _ _ _ => allowed.2) h
    · cases h

/-- Makes the moves one by one. -/
def routerPlay (prog : Program W) (both : Cell W (Router K T × Channel.System T))
    (check : Machine W → Bool) (k : Key) (m : Machine W) (moves : List (RouterMove T)) : Option (Machine W) :=
  moves.foldlM (routerStep prog both check k) m

theorem routerPlay_run [DecidableEq K] {prog : Program W}
    {both : Cell W (Router K T × Channel.System T)} {route : T → K} {capacity limit : Nat} {k : Key}
    {careful : Machine W → Prop} {check : Machine W → Bool}
    (routes : prog.RoutesChannel both route limit k) (sound : ∀ m, check m = true → careful m)
    {m m' : Machine W} {moves : List (RouterMove T)} (run : RouterRun both route capacity limit k careful m)
    (h : routerPlay prog both check k m moves = some m') :
    RouterRun both route capacity limit k careful m' := by
  induction moves generalizing m with
  | nil => cases h; exact run
  | cons move rest ih =>
    obtain ⟨mid, first, later⟩ := Option.bind_eq_some_iff.mp h
    exact ih (routerStep_run routes sound run first) later

/-- All the data there is: that of a router of numbers. -/
abbrev Numbers := Router Nat Nat × Channel.System Nat

def allNumbers : Cell Numbers Numbers := ⟨id, fun data _ => data, fun _ _ => rfl⟩

/-- Node 0 routes by parity, one item a run. -/
def parity : Program Numbers where
  cycleFn ex ctx k :=
    if k = 0 then channelRouteStream (· % 2) allNumbers 1 (fun _ => ([], [])) ex ctx else
    ([], .ret .unchanged)
  onDrop ex _ := routerOnDrop allNumbers.fst ex
  spawnFn _ _ := []

theorem parity_routes : parity.RoutesChannel allNumbers (· % 2) 1 0 where
  runs _ _ := ⟨fun _ => ([], []), rfl⟩
  spares := by
    constructor
    case runs =>
      intro s j other ex ctx _ effect member
      simp [parity, other] at member
    case drops =>
      intro s ex j op member
      rcases List.mem_append.mp member with mark | update
      · obtain ⟨node, -, rfl⟩ := List.mem_map.mp mark
        trivial
      · rw [List.mem_singleton.mp update]
        intro w same
        rw [Cell.snd_modify_fst]
        exact same
    case spawns => exact fun _ _ _ _ no => by cases no

/-- One send through the first sender, with no other send in flight. -/
def sendOne (item : Nat) : List (RouterMove Nat) :=
  .access (.start 0 .trySend item) :: List.replicate 3 (.access (.advance 0))

/-- Two sends and a cycle of so many steps. -/
def twoSends (steps : Nat) : List (RouterMove Nat) :=
  sendOne 1 ++ sendOne 2 ++ [.cycle Executor.instantly] ++ List.replicate steps .next

/-- An executor whose drain takes up to `pollLimit` notifications. -/
def parityMachine (pollLimit : Nat) : Machine Numbers :=
  .withConfig { ioEnabled := false, pollLimit := pollLimit } .spin
    (⟨∅, fun _ => []⟩, ⟨⟨.empty 1, 0, 0⟩, [], 0, [], .dropped, [], [], 0⟩)

/-- The router is built with a channel of capacity 2, and then the moves. -/
def parityPlay (pollLimit : Nat) (check : Machine Numbers → Bool) (moves : List (RouterMove Nat)) :
    Option (Machine Numbers) :=
  (channelRouteStreamNode allNumbers 2 0).bind fun ops =>
    ((parityMachine pollLimit).ex.execOps parity ops).toOption.bind fun ex =>
      routerPlay parity allNumbers check 0 ⟨ex, .idle, 0⟩ moves

theorem parityPlay_run {pollLimit : Nat} {careful : Machine Numbers → Prop} {check : Machine Numbers → Bool}
    (sound : ∀ m, check m = true → careful m) {moves : List (RouterMove Nat)} {m : Machine Numbers}
    (h : parityPlay pollLimit check moves = some m) : RouterRun allNumbers (· % 2) 2 1 0 careful m := by
  obtain ⟨ops, makes, rest⟩ := Option.bind_eq_some_iff.mp h
  obtain ⟨ex, built, played⟩ := Option.bind_eq_some_iff.mp rest
  have start : RouterRun allNumbers (· % 2) 2 1 0 careful ⟨ex, .idle, 0⟩ :=
    .built parity 0 (Machine.Reachable.initial ..) (.inl rfl) rfl makes (Machine.toOption_eq_some.mp built)
  exact routerPlay_run parity_routes sound start played

/-- Where the drain takes one notification a cycle, the second item keeps its own. -/
theorem two_sends_wake : ∃ m, parityPlay 1 (fun m => decide (Roomy 2 1 0 m)) (twoSends 8) = some m ∧
    m.phase = .idle ∧
    (allNumbers.snd.get m.ex.world).stored = 1 ∧ ¬ Stranded allNumbers 0 m :=
  have played : parityPlay 1 (fun m => decide (Roomy 2 1 0 m)) (twoSends 8) = some _ := rfl
  ⟨_, played, rfl, rfl, (channel_router_wakes (parityPlay_run (fun _ => of_decide_eq_true) played)).1⟩

/-- Where it takes both, the run that they make takes one item, and nothing wakes the router
for the other. -/
theorem two_sends_strand : ∃ m, parityPlay 16 (fun _ => true) (twoSends 9) = some m ∧
    RouterRun allNumbers (· % 2) 2 1 0 (fun _ => True) m ∧ Stranded allNumbers 0 m :=
  have played : parityPlay 16 (fun _ => true) (twoSends 9) = some _ := rfl
  ⟨_, played, parityPlay_run (fun _ _ => trivial) played, rfl, by decide, by decide,
    rfl, by decide, by decide⟩

end Wavelet
