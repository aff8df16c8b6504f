import Wavelet.Wsnl.Switch

/-!
# Switches that take

`take_switch_node` and `take_switch_stream_node` of `control.rs`. They show one of two sources
as a switch does, but take its data away. What they have taken from a source is kept account
of along a life.
-/

namespace Wavelet

variable {W T α : Type}

namespace Switch

/-- The data of a source is taken: `empty` is what is left there. -/
def takeFrom (sw : Switch W T) (own : Cell W (Bool × T)) (empty : T) (usePrimary : Bool) (w : W) : W :=
  own.put (usePrimary, (sw.source usePrimary).borrow w) ((sw.source usePrimary).data.put empty w)

end Switch

section Cycle

variable (own : Cell W (Bool × T)) (sw : Switch W T) (empty : T) (answer : T → Control)

/-- The cycle function of a switch that takes. -/
def takeSwitchCycle (ex : Executor W) (ctx : ExecutionContext) : List (Effect W) × Outcome :=
  let take (usePrimary : Bool) : List (Effect W) × Outcome :=
    ([.handle (.update (sw.takeFrom own empty usePrimary))],
      .ret (answer ((sw.source usePrimary).borrow ex.world)))
  let usePrimary := (own.get ex.world).1
  if ex.hasMutated ctx sw.switch.key then take (sw.switch.borrow ex.world)
  else if usePrimary && ex.hasMutated ctx sw.primary.key then take usePrimary
  else if !usePrimary && ex.hasMutated ctx sw.secondary.key then take usePrimary
  else ([], .ret .unchanged)

/-- Node `c` of the program is such a switch, and its data is its own. -/
structure Program.TakeSwitches (prog : Program W) (c : Key) : Prop where
  runs : ∀ ex ctx, prog.cycleFn ex ctx c = takeSwitchCycle own sw empty answer ex ctx
  spares : prog.Spares own c

end Cycle

/-- The cycle function of `take_switch_node`: `std::mem::take` leaves the default. -/
def takeSwitchValue [Inhabited T] (own : Cell W (Bool × T)) (sw : Switch W T) :
    Executor W → ExecutionContext → List (Effect W) × Outcome :=
  takeSwitchCycle own sw default fun _ => .broadcast

/-- The cycle function of `take_switch_stream_node`: `drain` leaves nothing. -/
def takeSwitchStream (own : Cell W (Bool × List T)) (sw : Switch W (List T)) :
    Executor W → ExecutionContext → List (Effect W) × Outcome :=
  takeSwitchCycle own sw [] streamAnswer

def takeSwitchNode [Inhabited T] (own : Cell W (Bool × T)) (sw : Switch W T) (index : NodeIndex)
    (order : HashOrder) : List (ExecOp W) :=
  switchNode own sw default index order

def takeSwitchStreamNode (own : Cell W (Bool × List T)) (sw : Switch W (List T)) (index : NodeIndex)
    (order : HashOrder) :
    List (ExecOp W) :=
  switchStreamNode own sw index order

/-- A property of what was taken from each source and of the data, as the switch treats it. -/
structure SwitchLedger (own : Cell W (Bool × T)) (sw : Switch W T) (empty : T)
    (answer : T → Control) (p : Bool → List T → W → Prop) :
    Prop where
  shows : ∀ side taken w, answer ((sw.source side).borrow w) = .broadcast → p side taken w →
    p side (taken ++ [(sw.source side).borrow w]) (sw.takeFrom own empty side w)
  hides : ∀ side taken w, answer ((sw.source side).borrow w) ≠ .broadcast → p side taken w →
    p side taken (sw.takeFrom own empty side w)
  apart : ∀ side side' taken w, side' ≠ side → p side' taken w → p side' taken (sw.takeFrom own empty side w)

/-- All code but that of node `c` keeps `p`. -/
structure Program.KeepsBooks (prog : Program W) (c : Key) (p : Bool → List T → W → Prop) : Prop where
  runs : ∀ side taken k, k ≠ c → prog.RunsKeep (p side taken) k
  drops : ∀ side taken, prog.DropsKeep (p side taken)

namespace Executor

/-- No call of `schedule_node` in the cycle is for the node in slot `i`. -/
def Uncalled (prog : Program W) (input : CycleInput) (ex : Executor W) (i : NodeIndex) : Prop :=
  ∀ now polled calls mid, poll input ex.beginCycle = .ok (some now, polled) →
    Turned prog now polled calls mid → i ∉ calls

variable {own : Cell W (Bool × T)} {sw : Switch W T} {empty : T} {answer : T → Control} {c : Key}
  {prog : Program W}
  {now : CycleTime} {p : Bool → List T → W → Prop}

/-- What node `c` shows of a source at the end of a cycle in which it broadcasts. -/
def delivered (own : Cell W (Bool × T)) (c : Key) (side : Bool) (last : Executor W) : List T :=
  if last.HasBroadcast c ∧ (own.get last.world).1 = side then [(own.get last.world).2] else []

/-- What it has shown of the source. -/
def deliveries (own : Cell W (Bool × T)) (c : Key) (side : Bool) (history : List (Executor W)) : List T :=
  history.flatMap (delivered own c side)

variable (own sw empty answer) in
/-- The cycle function takes the data of one source, or does nothing. -/
theorem takeSwitchCycle_cases (ex : Executor W) (ctx : ExecutionContext) :
    takeSwitchCycle own sw empty answer ex ctx = ([], .ret .unchanged) ∨
      ∃ side, takeSwitchCycle own sw empty answer ex ctx =
        ([.handle (.update (sw.takeFrom own empty side))],
        .ret (answer ((sw.source side).borrow ex.world))) := by
  unfold takeSwitchCycle
  dsimp only
  split_ifs
  · exact .inr ⟨_, rfl⟩
  · exact .inr ⟨_, rfl⟩
  · exact .inr ⟨_, rfl⟩
  · exact .inl rfl

theorem takeSwitchCycle_updates {ex : Executor W} {ctx : ExecutionContext} {effect : Effect W}
    (member : effect ∈ (takeSwitchCycle own sw empty answer ex ctx).1) :
    ∃ f, effect = .handle (.update f) := by
  rcases takeSwitchCycle_cases own sw empty answer ex ctx with idle | ⟨side, takes⟩
  · rw [idle] at member
    cases member
  · rw [takes] at member
    exact ⟨_, List.mem_singleton.mp member⟩

theorem takeSwitchCycle_returns (ex : Executor W) (ctx : ExecutionContext) :
    (takeSwitchCycle own sw empty answer ex ctx).2 ≠ .panic := by
  rcases takeSwitchCycle_cases own sw empty answer ex ctx with idle | ⟨side, takes⟩
  · simp [idle]
  · simp [takes]

/-- One call of the cycle function. -/
theorem takeSwitchCycle_ledger (ledger : SwitchLedger own sw empty answer p) {s : Executor W}
    {ctx : ExecutionContext} {control : Control}
    (answers : (takeSwitchCycle own sw empty answer s ctx).2 = .ret control) {side : Bool} {taken : List T}
    (start : p side taken s.world) :
    let after := (takeSwitchCycle own sw empty answer s ctx).1.foldl Effect.onWorld s.world
    p side (taken ++ if control = .broadcast ∧
        (own.get after).1 = side then [(own.get after).2] else []) after := by
  intro after
  rcases takeSwitchCycle_cases own sw empty answer s ctx with idle | ⟨source, takes⟩
  · rw [idle] at answers
    cases answers
    have same : after = s.world := by
      show (takeSwitchCycle own sw empty answer s ctx).1.foldl Effect.onWorld s.world = _
      rw [idle]
      rfl
    rw [same]
    simpa using start
  · rw [takes] at answers
    cases answers
    have moved : after = sw.takeFrom own empty source s.world := by
      show (takeSwitchCycle own sw empty answer s ctx).1.foldl Effect.onWorld s.world = _
      rw [takes]
      rfl
    have data : own.get after = (source, (sw.source source).borrow s.world) := by
      rw [moved]
      exact own.get_put _ _
    rw [data, moved]
    by_cases this : source = side
    · subst this
      by_cases told : answer ((sw.source source).borrow s.world) = .broadcast
      · simpa [told] using ledger.shows source taken s.world told start
      · simpa [told] using ledger.hides source taken s.world told start
    · simpa [this] using ledger.apart source side taken s.world (Ne.symm this) start

/-- What the code of the other nodes keeps, their turns keep. -/
theorem Turns.keeps {q : W → Prop} {a b : Executor W} (turns : Turns prog now a b)
    {later : List Run} (runs : b.runs = later ++ a.runs) (apart : ∀ run ∈ later, run.node ≠ c)
    (keeps : ∀ k, k ≠ c → prog.RunsKeep q k) (drops : prog.DropsKeep q) (start : q a.world) :
    q b.world := by
  refine Turns.induct (p := fun s => q s.world) turns runs apart ?_ start
  intro before run ran after _ turn other here
  obtain ⟨s, -, cycled⟩ := turn.cycled
  rw [turn.world]
  exact graphCycle_world drops cycled (keeps _ other) here

/-- The run of the switch. -/
theorem TurnOf.takes_source {before ran after : Executor W} {run : Run}
    (turn : TurnOf prog now before run ran after) (node : run.node = c)
    (switches : prog.TakeSwitches own sw empty answer c)
    (ledger : SwitchLedger own sw empty answer p) (books : prog.KeepsBooks c p)
    (calm : run.verdict ≠ .panicked) {side : Bool} {taken : List T} (start : p side taken before.world) :
    p side (taken ++ if run.verdict = .returned .broadcast ∧
      (own.get ran.world).1 = side then [(own.get ran.world).2] else []) ran.world := by
  obtain ⟨sch, -, cycled⟩ := turn.cycled
  cases verdict : run.verdict with
  | panicked => exact absurd verdict calm
  | poisoned =>
    rw [skipped_graphCycle cycled (.inl verdict)]
    simpa using start
  | noHandle =>
    rw [skipped_graphCycle cycled (.inr verdict)]
    simpa using start
  | returned control =>
    obtain ⟨s, world, -, -, answers, leaves⟩ := returned_graphCycle cycled verdict
    rw [node, switches.runs] at answers leaves
    have plain : ∀ effect ∈ (takeSwitchCycle own sw empty answer s ⟨run.index, now, s.epoch⟩).1,
        effect.Plain := by
      intro effect member
      obtain ⟨f, rfl⟩ := takeSwitchCycle_updates member
      trivial
    have data := leaves plain (fun w => own.get w = _) (switches.spares.drops _) rfl
    replace world : s.world = before.world := world
    rw [data]
    apply leaves plain _ (books.drops side _)
    rw [← world] at start
    simpa using takeSwitchCycle_ledger ledger answers start

section Course

variable {rels : List (Key × Relationship)} {seeded : Prop} {polled final : Executor W}

/-- A cycle adds to the account what the switch shows at its end. -/
theorem Course.delivers (course : Course prog now rels c seeded polled final)
    (switches : prog.TakeSwitches own sw empty answer c)
    (ledger : SwitchLedger own sw empty answer p) (books : prog.KeepsBooks c p)
    (uncalled : ∀ calls mid, Turned prog now polled calls mid → (polled.inner c).index ∉ calls)
    {side : Bool} {taken : List T} (start : p side taken polled.world) :
    p side (taken ++ delivered own c side final) final.world := by
  by_cases runs : ∃ run ∈ final.runs, run.node = c
  · obtain ⟨run, member, node⟩ := runs
    obtain ⟨later, earlier, runs⟩ := List.append_of_mem member
    obtain ⟨before, ran, after, first, -, turn, rest⟩ := Turns.split course.turns course.none runs
    have once := course.runs_once uncalled
    rw [verdicts, List.length_map] at once
    have sole := sole_of_turn first turn rest node once
    obtain ⟨prior, split⟩ := Turns.runs first
    have reached : p side taken before.world := by
      refine first.keeps split (fun r member => sole.earlier r ?_) (books.runs side taken)
        (books.drops side taken) start
      rw [split]
      exact List.mem_append_left _ member
    have calm : run.verdict ≠ .panicked := by
      refine course.unpanicked (fun s ctx effect member => ?_) (fun s ctx => ?_) run member node
      · rw [switches.runs] at member
        exact takeSwitchCycle_updates member
      · rw [switches.runs]
        exact takeSwitchCycle_returns s ctx
    obtain ⟨later', split', apart⟩ := sole.later
    have data : own.get final.world = own.get ran.world := by
      rw [Turns.spares rest switches.spares split' apart, turn.world]
    have broadcast : final.HasBroadcast c ↔ run.verdict = .returned .broadcast := by
      rw [hasBroadcast_iff, sole.verdicts, List.mem_singleton, eq_comm]
    apply rest.keeps split' apart (books.runs side _) (books.drops side _)
    simp only [delivered, broadcast, data, turn.world]
    exact turn.takes_source node switches ledger books calm reached
  · have quiet : ∀ run ∈ final.runs, run.node ≠ c := fun run member node => runs ⟨run, member, node⟩
    have silent : ¬ final.HasBroadcast c := by
      rintro ⟨run, member, node, -⟩
      exact quiet run member node
    have split : final.runs = final.runs ++ polled.runs := by rw [course.none, List.append_nil]
    have kept := course.turns.keeps split quiet (books.runs side taken) (books.drops side taken) start
    simpa [delivered, silent] using kept

end Course

/-! ## Lives -/

/-- In a life of a switch that takes, all code but its own keeps `p`. -/
def takeManners (own : Cell W (Bool × T)) (sw : Switch W T) (empty : T) (answer : T → Control) (c : Key)
    (p : Bool → List T → W → Prop) : Manners W where
  legal prog := prog.TakeSwitches own sw empty answer c ∧ prog.KeepsBooks c p
  polite op := ∀ side taken, op.Keeps (p side taken)
  fine prog input ex _ := ex.Uncalled prog input (ex.inner c).index

/-- The switch has just been made. -/
def TakeMade (own : Cell W (Bool × T)) (sw : Switch W T) (empty : T) (c : Key) (ex : Executor W) : Prop :=
  ∃ prog index order before, Constructed prog (sw.init own empty) (sw.args index order) c before ex

/-- The account of a life. -/
theorem Life.delivers {history : List (Executor W)} {first ex : Executor W}
    (made : TakeMade own sw empty c first)
    (life : Life (takeManners own sw empty answer c p) (· = first) history ex)
    (ledger : SwitchLedger own sw empty answer p) (starts : ∀ side, p side [] first.world)
    (present : ex.Present c) (few : ex.cycles < 2 ^ 64) (manuals : ex.All Event.ManualPresent)
    (side : Bool) : p side (deliveries own c side history) ex.world := by
  obtain ⟨prog, index, order, before, constructed⟩ := made
  have begins : ∀ ex, ex = first → ex.Idle ∧ Lineage sw.relationships c ex := by
    rintro ex rfl
    exact ⟨constructed.after, constructed.lineage⟩
  refine life.data (p := fun history w => p side (deliveries own c side history) w) (fun _ same => same)
    (fun ex here => ⟨(begins ex here).1, (begins ex here).2, ?_⟩)
    (fun prog history legal => legal.2.drops side _)
    (fun op history polite => polite side _) ?_ present few manuals
  · rw [here]
    exact starts side
  · intro prog fuel input history ex last swept life legal pass fine few manuals survives before
    obtain ⟨idle, lineage⟩ := life.lineage (fun _ same => same) begins
    obtain ⟨now, polled, final, s, polls, rfl, course⟩ :=
      pass.course idle few manuals lineage (pass.present idle lineage.built survives)
    have uncalled : ∀ calls mid, Turned prog now polled calls mid → (polled.inner c).index ∉ calls := by
      intro calls mid turned
      rw [inner_of_inners (inners_poll polls)]
      exact fine now polled calls mid polls turned
    have start : p side (deliveries own c side history) polled.world := by
      rw [world_poll polls]
      exact before
    have ends := course.delivers legal.1 ledger legal.2 uncalled start
    show p side ((history ++ [_]).flatMap (delivered own c side)) final.world
    rw [List.flatMap_append, List.flatMap_singleton]
    exact ends

end Executor

/-! ## What is put in comes out -/

/-- `log` says what was ever put into each source. The switch does not write to it, and its
data and those of the sources are different cells. -/
structure Switch.Logs {β : Type} (sw : Switch W T) (own : Cell W (Bool × T)) (log : Bool → W → β) : Prop where
  shown : ∀ side v w, log side (own.put v w) = log side w
  taken : ∀ side side' v w, log side ((sw.source side').data.put v w) = log side w
  apart : ∀ side, own.Apart (sw.source side).data
  disjoint : ∀ side side', side' ≠ side → (sw.source side).data.Apart (sw.source side').data

namespace Switch.Logs

variable {β : Type} {sw : Switch W T} {own : Cell W (Bool × T)} {log : Bool → W → β}

theorem log_take (logs : sw.Logs own log) (empty : T) (side side' : Bool) (w : W) :
    log side (sw.takeFrom own empty side' w) = log side w := by
  rw [takeFrom, logs.shown, logs.taken]

theorem source_take (logs : sw.Logs own log) (empty : T) (side : Bool) (w : W) :
    (sw.source side).borrow (sw.takeFrom own empty side w) = empty := by
  rw [takeFrom, Node.borrow, logs.apart, (sw.source side).data.get_put]

theorem other_take (logs : sw.Logs own log) (empty : T) {side side' : Bool} (other : side' ≠ side) (w : W) :
    (sw.source side').borrow (sw.takeFrom own empty side w) = (sw.source side').borrow w := by
  rw [takeFrom, Node.borrow, logs.apart, logs.disjoint side side' other]
  rfl

end Switch.Logs

namespace Executor

/-- The data of two tanks, of a lever and of a switch that takes, with the logs of the tanks. -/
structure Tanks (T : Type) where
  primary : T
  secondary : T
  lever : Bool
  shown : Bool × T
  poured : List Nat × List Nat
  deriving DecidableEq, Repr

def shownTank : Cell (Tanks T) (Bool × T) :=
  ⟨Tanks.shown, fun shown tanks => { tanks with shown := shown }, fun _ _ => rfl⟩

def tankSwitch : Switch (Tanks T) T where
  primary := ⟨0, ⟨Tanks.primary, fun items tanks => { tanks with primary := items }, fun _ _ => rfl⟩⟩
  secondary := ⟨1, ⟨Tanks.secondary, fun items tanks => { tanks with secondary := items }, fun _ _ => rfl⟩⟩
  switch := ⟨2, ⟨Tanks.lever, fun lever tanks => { tanks with lever := lever }, fun _ _ => rfl⟩⟩

def tankLog (side : Bool) (tanks : Tanks T) : List Nat := if side then tanks.poured.1 else tanks.poured.2

theorem tankSwitch_logs : (tankSwitch : Switch (Tanks T) T).Logs shownTank tankLog where
  shown _ _ _ := rfl
  taken side side' v w := by cases side' <;> rfl
  apart side v w := by cases side <;> rfl
  disjoint side side' other v w := by cases side <;> cases side' <;> first | exact absurd rfl other | rfl

/-- Each tank is filled when it runs, and the lever moves. -/
def pouring (fill : Nat → T → T) (empty : T) (answer : T → Control) : Program (Tanks T) where
  cycleFn ex ctx k :=
    if k = 3 then takeSwitchCycle shownTank tankSwitch empty answer ex ctx
    else if k = 0 then
      ([.handle (.update fun tanks => { tanks with
        primary := fill 7 tanks.primary
        poured := (tanks.poured.1 ++ [7], tanks.poured.2) })], .ret .broadcast)
    else if k = 1 then
      ([.handle (.update fun tanks => { tanks with
        secondary := fill 8 tanks.secondary
        poured := (tanks.poured.1, tanks.poured.2 ++ [8]) })], .ret .broadcast)
    else ([.handle (.update fun tanks => { tanks with lever := !tanks.lever })], .ret .broadcast)
  onDrop _ _ := []
  spawnFn _ _ := []

section Pouring

variable {fill : Nat → T → T} {empty : T} {answer : T → Control}

theorem pouring_effects {ex : Executor (Tanks T)} {ctx : ExecutionContext} {k : Key}
    {effect : Effect (Tanks T)} (other : k ≠ 3)
    (member : effect ∈ ((pouring fill empty answer).cycleFn ex ctx k).1) :
    effect = .handle (.update fun tanks => { tanks with
      primary := fill 7 tanks.primary
      poured := (tanks.poured.1 ++ [7], tanks.poured.2) }) ∨
    effect = .handle (.update fun tanks => { tanks with
      secondary := fill 8 tanks.secondary
      poured := (tanks.poured.1, tanks.poured.2 ++ [8]) }) ∨
    effect = .handle (.update fun tanks => { tanks with lever := !tanks.lever }) := by
  simp only [pouring, other, if_false] at member
  split_ifs at member
  · exact .inl (List.mem_singleton.mp member)
  · exact .inr (.inl (List.mem_singleton.mp member))
  · exact .inr (.inr (List.mem_singleton.mp member))

theorem pouring_takes : (pouring fill empty answer).TakeSwitches shownTank tankSwitch empty answer 3 := by
  refine ⟨fun ex ctx => rfl, fun v k other ex ctx data effect member => ?_,
    fun v ex k op member => ?_, fun v ex t op member => ?_⟩
  · rcases pouring_effects other member with rfl | rfl | rfl <;> exact fun w same => same
  · cases member
  · cases member

theorem pouring_books {p : Bool → List T → Tanks T → Prop}
    (primary : ∀ side taken tanks, p side taken tanks →
      p side taken { tanks with
        primary := fill 7 tanks.primary
        poured := (tanks.poured.1 ++ [7], tanks.poured.2) })
    (secondary : ∀ side taken tanks, p side taken tanks →
      p side taken { tanks with
        secondary := fill 8 tanks.secondary
        poured := (tanks.poured.1, tanks.poured.2 ++ [8]) })
    (lever : ∀ side taken tanks, p side taken tanks → p side taken { tanks with lever := !tanks.lever }) :
    (pouring fill empty answer).KeepsBooks 3 p := by
  refine ⟨fun side taken k other ex ctx start effect member => ?_,
    fun side taken ex k op member => by cases member⟩
  rcases pouring_effects other member with rfl | rfl | rfl
  · exact primary side taken
  · exact secondary side taken
  · exact lever side taken

theorem pouring_uncalled {input : CycleInput} {ex : Executor (Tanks T)} {i : NodeIndex} :
    ex.Uncalled (pouring fill empty answer) input i := by
  intro now polled calls mid polls turned
  induction turned with
  | start => exact List.not_mem_nil
  | again _ _ ih =>
    rw [List.mem_append, not_or]
    refine ⟨ih, fun member => ?_⟩
    obtain ⟨k, s, ctx, j, -, listed, -⟩ := mem_handedIn member
    by_cases switch : k = 3
    · subst switch
      replace listed : .scheduleNode j ∈ (takeSwitchCycle shownTank tankSwitch empty answer s ctx).1 := listed
      obtain ⟨f, no⟩ := takeSwitchCycle_updates listed
      cases no
    · rcases pouring_effects switch listed with no | no | no <;> cases no

/-- The lever is on, and the tanks are empty. -/
def dryTanks (empty : T) : Executor (Tanks T) :=
  withConfig { ioEnabled := false, timerEnabled := false } .spin ⟨empty, empty, true, (true, empty), ([], [])⟩

/-- Builds the tanks and the lever. -/
def tankOps : List (ExecOp (Tanks T)) := [.build { index := 0 }, .build { index := 1 }, .build { index := 2 },
  .handle (.clone 0 .user), .handle (.clone 1 .user), .handle (.clone 2 .user)]

theorem pouring_made {before ex : Executor (Tanks T)}
    (prepared : (dryTanks empty).execOps (pouring fill empty answer) tankOps = .ok before)
    (next : before.inners.length = 3)
    (built : before.execOps (pouring fill empty answer)
      (switchNode shownTank tankSwitch empty 3 .insertion) = .ok ex) :
    TakeMade shownTank tankSwitch empty 3 ex := by
  refine ⟨pouring fill empty answer, 3, .insertion, before,
    From.ops ⟨[], .start ⟨_, _, _, rfl⟩⟩ prepared, next, ?_, built⟩
  intro kr declared
  simp [Switch.args, Switch.relationships, tankSwitch, Node.triggers] at declared
  rcases declared with rfl | rfl | rfl <;> decide

end Pouring

section Stream

variable {own : Cell W (Bool × List α)} {sw : Switch W (List α)} {c : Key} {log : Bool → W → List α}
  {r : List α → List α → Prop}

end Stream

section Value

variable [Inhabited T] [DecidableEq T] {own : Cell W (Bool × T)} {sw : Switch W T} {c : Key}
  {log : Bool → W → List T}

/-- The values taken from a source and the one in it, defaults apart, are among those put in. -/
def ShownOnce (sw : Switch W T) (log : Bool → W → List T) (side : Bool) (taken : List T) (w : W) : Prop :=
  ((taken ++ [(sw.source side).borrow w]).filter (· ≠ default)).Sublist (log side w)

theorem shownOnce_ledger (logs : sw.Logs own log) :
    SwitchLedger own sw default (fun _ => .broadcast) (ShownOnce sw log) where
  shows side taken w told start := by
    rw [ShownOnce, logs.log_take, logs.source_take, List.filter_append]
    simpa [ShownOnce] using start
  hides side taken w silent := absurd rfl silent
  apart side side' taken w other start := by
    rwa [ShownOnce, logs.log_take, logs.other_take default other]

/-- Another value takes the place of the one in the source. -/
theorem shownOnce_put {taken log : List T} {value : T}
    (once : ((taken ++ [value]).filter (· ≠ default)).Sublist log) (value' : T) :
    ((taken ++ [value']).filter (· ≠ default)).Sublist (log ++ [value']) := by
  rw [List.filter_append] at once ⊢
  exact ((List.sublist_append_left _ _).trans once).append List.filter_sublist

/-- In every life of a `take_switch_node`: of the values that were put into a source it shows
none twice, and those it shows in order; the value that is in the source has not been shown. -/
theorem take_switch_shows_once {history : List (Executor W)} {first ex : Executor W}
    (made : TakeMade own sw default c first)
    (life : Life (takeManners own sw default (fun _ => .broadcast) c (ShownOnce sw log))
      (· = first) history ex) (logs : sw.Logs own log)
    (starts : ∀ side, ShownOnce sw log side [] first.world) (present : ex.Present c)
    (few : ex.cycles < 2 ^ 64) (manuals : ex.All Event.ManualPresent) :
    ∀ side, ((deliveries own c side history ++ [(sw.source side).borrow ex.world]).filter
      (· ≠ default)).Sublist (log side ex.world) :=
  life.delivers made (shownOnce_ledger logs) starts present few manuals

def pouringValues : Program (Tanks Nat) := pouring (fun item _ => item) 0 fun _ => .broadcast

/-- One tank is filled, then the other while the lever moves. -/
theorem pouring_shows_once :
    ∃ first last again ex, TakeMade shownTank tankSwitch 0 3 first ∧
      Life (takeManners shownTank tankSwitch 0 (fun _ => .broadcast) 3 (ShownOnce tankSwitch tankLog))
      (· = first) [last, again] ex ∧
      deliveries shownTank 3 true [last, again] = [7] ∧ deliveries shownTank 3 false [last, again] = [8] ∧
      ∀ side, ((deliveries shownTank 3 side [last, again] ++
      [(tankSwitch.source side).borrow ex.world]).filter (· ≠ default)).Sublist
        (tankLog side ex.world) := by
  obtain ⟨before, first, filled, last, swept, moved, again, ex, prepared, built, yielded, nodes,
    sweeps, yielded', nodes', sweeps', next,
      empty, present, few, manuals, primary, secondary⟩ :
      ∃ before first filled last swept moved again ex, (dryTanks 0).execOps pouringValues tankOps =
        .ok before ∧
        before.execOps pouringValues (switchNode shownTank tankSwitch 0 3 .insertion) = .ok first ∧
        first.execOp pouringValues (.yields 0) = .ok filled ∧
        runNodes pouringValues 4 instantly filled = .ok (.running, last) ∧
        sweepLoop pouringValues 4 last = .ok swept ∧
        swept.execOps pouringValues [.yields 1, .yields 2] = .ok moved ∧
        runNodes pouringValues 4 instantly moved = .ok (.running, again) ∧
        sweepLoop pouringValues 4 again = .ok ex ∧
        before.inners.length = 3 ∧ first.world = ⟨0, 0, true, (true, 0), ([], [])⟩ ∧ ex.Present 3 ∧
        ex.cycles < 2 ^ 64 ∧
        ex.All Event.ManualPresent ∧ deliveries shownTank 3 true [last, again] = [7] ∧
        deliveries shownTank 3 false [last, again] = [8] :=
    ⟨_, _, _, _, _, _, _, _, rfl, rfl, rfl, rfl, rfl, rfl, rfl, rfl, rfl,
      rfl, by decide, by decide, by decide, by decide, by decide⟩
  have books : pouringValues.KeepsBooks 3 (ShownOnce tankSwitch tankLog) := by
    apply pouring_books
    · rintro (_ | _) taken tanks once
      · exact once
      · exact shownOnce_put once 7
    · rintro (_ | _) taken tanks once
      · exact shownOnce_put once 8
      · exact once
    · rintro (_ | _) taken tanks once <;> exact once
  have made := pouring_made prepared next built
  have start :
      Life (takeManners shownTank tankSwitch 0 (fun _ => .broadcast) 3 (ShownOnce tankSwitch tankLog))
      (· = first) [] first :=
    .start rfl
  have once :=
    (start.op pouringValues (.yields 0) ⟨pouring_takes, books⟩
      (fun _ _ => trivial) yielded).pass pouringValues 4 instantly
    ⟨pouring_takes, books⟩ ⟨nodes, sweeps⟩ pouring_uncalled
  have life :=
    (once.ops ⟨pouring_takes, books⟩
      (by simp [takeManners, ExecOp.yields, ExecOp.Keeps]) yielded').pass pouringValues 4 instantly
    ⟨pouring_takes, books⟩ ⟨nodes', sweeps'⟩ pouring_uncalled
  refine ⟨first, last, again, ex, made, life, primary, secondary, ?_⟩
  refine take_switch_shows_once made life tankSwitch_logs (fun side => ?_) present few manuals
  rw [empty]
  cases side <;> simp [ShownOnce, tankSwitch, tankLog, Switch.source, Node.borrow]

end Value

end Executor
end Wavelet
