import Wavelet.Wsnl.Construct

/-!
# Switches

`switch_node` and `switch_stream_node` of `control.rs`: a node that shows one of two sources,
as a third node says. It keeps a copy of what that node said last, and takes the data of the
selected source when the switch or that source has mutated.
-/

namespace Wavelet

variable {W T : Type}

/-- The handles that a switch is given. -/
structure Switch (W T : Type) where
  primary : Node W T
  secondary : Node W T
  switch : Node W Bool

namespace Switch

/-- The source that is shown while `use_primary` is as given. -/
def source (sw : Switch W T) (usePrimary : Bool) : Node W T := if usePrimary then sw.primary else sw.secondary

def relationships (sw : Switch W T) : List (Key × Relationship) :=
  [sw.primary.triggers, sw.secondary.triggers, sw.switch.triggers]

/-- The node starts with `use_primary` as the switch has it then. -/
def init (sw : Switch W T) (own : Cell W (Bool × T)) (initial : T) (w : W) : W :=
  own.put (sw.switch.borrow w, initial) w

def args (sw : Switch W T) (index : NodeIndex) (order : HashOrder) : BuildArgs where
  index := index
  relationships := sw.relationships
  order := order
  captures := [sw.primary.key, sw.secondary.key, sw.switch.key]

end Switch

section Cycle

variable (own : Cell W (Bool × T)) (sw : Switch W T) (answer : T → Control)

/-- The cycle function of a switch: its own data are `use_primary` and what it shows, and
`answer` is what it returns when it has taken the data of a source. -/
def switchCycle (ex : Executor W) (ctx : ExecutionContext) : List (Effect W) × Outcome :=
  let take (usePrimary : Bool) : List (Effect W) × Outcome :=
    let value := (sw.source usePrimary).borrow ex.world
    ([.handle (.update (own.put (usePrimary, value)))], .ret (answer value))
  let usePrimary := (own.get ex.world).1
  if ex.hasMutated ctx sw.switch.key then take (sw.switch.borrow ex.world)
  else if usePrimary && ex.hasMutated ctx sw.primary.key then take usePrimary
  else if !usePrimary && ex.hasMutated ctx sw.secondary.key then take usePrimary
  else ([], .ret .unchanged)

end Cycle

/-- A stream is broadcast if it has items. -/
def streamAnswer (items : List T) : Control := Control.from (!items.isEmpty)

/-- The cycle function of `switch_stream_node`. -/
def switchStream (own : Cell W (Bool × List T)) (sw : Switch W (List T)) :
    Executor W → ExecutionContext → List (Effect W) × Outcome :=
  switchCycle own sw streamAnswer

def switchNode (own : Cell W (Bool × T)) (sw : Switch W T) (initial : T) (index : NodeIndex)
    (order : HashOrder) : List (ExecOp W) :=
  construct (sw.init own initial) (sw.args index order)

def switchStreamNode (own : Cell W (Bool × List T)) (sw : Switch W (List T)) (index : NodeIndex)
    (order : HashOrder) :
    List (ExecOp W) :=
  construct (sw.init own []) (sw.args index order)

/-- Node `c` of the program is a switch, and the data of the nodes is their own. -/
structure Program.Switches (prog : Program W) (own : Cell W (Bool × T)) (sw : Switch W T)
    (answer : T → Control) (c : Key) : Prop where
  runs : ∀ ex ctx, prog.cycleFn ex ctx c = switchCycle own sw answer ex ctx
  spares : prog.Spares own c
  sources : ∀ usePrimary, prog.Encloses (sw.source usePrimary)
  switch : prog.Encloses sw.switch

namespace Switch

/-- What a switch looks at: its own data and those of the nodes it was given. -/
def view (own : Cell W (Bool × T)) (sw : Switch W T) (w : W) : ((Bool × T) × Bool) × T × T :=
  ((own.get w, sw.switch.borrow w), sw.primary.borrow w, sw.secondary.borrow w)

/-- In a life of a switch its code stays what it is, and no other code touches the data it
looks at. -/
def manners (own : Cell W (Bool × T)) (sw : Switch W T) (answer : T → Control) (c : Key)
    (fine : Executor W → Executor W → Prop) : Manners W where
  legal prog := prog.Switches own sw answer c
  polite op := ∀ v, op.Keeps fun w => sw.view own w = v
  fine _ _ ex last := fine ex last

/-- The switch has just been made, after cycles that returned as given. -/
def MadeFrom (exits : Exit → Prop) (own : Cell W (Bool × T)) (sw : Switch W T) (initial : T)
    (answer : T → Control) (c : Key) (ex : Executor W) : Prop :=
  ∃ prog index order before, prog.Switches own sw answer c ∧ own.Apart sw.switch.data ∧
    Executor.Built exits prog (sw.init own initial) (sw.args index order) c before ex

variable {own : Cell W (Bool × T)} {sw : Switch W T} {answer : T → Control} {c : Key}

end Switch

/-! ## What a cycle does to a switch -/

/-- The cycle function was called and returned. -/
def Verdict.isReturned : Verdict → Bool
  | .returned _ => true
  | _ => false

namespace Executor

variable {own : Cell W (Bool × T)} {sw : Switch W T} {answer : T → Control} {c : Key}
  {prog : Program W} {now : CycleTime}

/-- The cycle function of node `k` has returned in the current cycle. -/
def HasReturned (ex : Executor W) (k : Key) : Prop :=
  ∃ run ∈ ex.runs, run.node = k ∧ run.verdict.isReturned = true

instance (ex : Executor W) (k : Key) : Decidable (ex.HasReturned k) :=
  inferInstanceAs (Decidable (∃ run ∈ ex.runs, _))

/-- What a switch makes of its data in a cycle, and what it returns. -/
def settle (sw : Switch W T) (answer : T → Control) (final : Executor W) (data : Bool × T) :
    (Bool × T) × Control :=
  let take (usePrimary : Bool) : (Bool × T) × Control :=
    let value := (sw.source usePrimary).borrow final.world
    ((usePrimary, value), answer value)
  if final.HasBroadcast sw.switch.key then take (sw.switch.borrow final.world)
  else if final.HasBroadcast (sw.source data.1).key then take data.1
  else (data, .unchanged)

/-- A second run in the cycle does the same. -/
theorem settle_settle (final : Executor W) (data : Bool × T) :
    settle sw answer final (settle sw answer final data).1 = settle sw answer final data := by
  by_cases switched : final.HasBroadcast sw.switch.key
  · simp [settle, switched]
  · by_cases followed : final.HasBroadcast (sw.source data.1).key
    · simp [settle, switched, followed]
    · simp [settle, switched, followed]

/-- One run: the cycle function is called or it is not. -/
def Settles (sw : Switch W T) (answer : T → Control) (final : Executor W) (before : Bool × T)
    (verdict : Verdict) (after : Bool × T) : Prop :=
  (verdict = .poisoned ∨ verdict = .noHandle) ∧ after = before ∨
    verdict = .returned (settle sw answer final before).2 ∧ after = (settle sw answer final before).1

theorem mem_relationships (sw : Switch W T) (usePrimary : Bool) :
    (sw.source usePrimary).triggers ∈ sw.relationships := by
  cases usePrimary <;> simp [Switch.source, Switch.relationships]

/-- The cycle function computes `settle`. -/
theorem switchCycle_settles {final s : Executor W} {ctx : ExecutionContext} {control : Control}
    (epoch : ctx.epoch = s.epoch) (sees : Sees prog sw.relationships final s)
    (sources : ∀ usePrimary, prog.Encloses (sw.source usePrimary))
    (switch : prog.Encloses sw.switch) (answers : (switchCycle own sw answer s ctx).2 = .ret control) :
    Settles sw answer final (own.get s.world) (.returned control)
      (own.get ((switchCycle own sw answer s ctx).1.foldl Effect.onWorld s.world)) := by
  have listed : sw.switch.triggers ∈ sw.relationships := by simp [Switch.relationships]
  have switched := sees.hasMutated listed epoch
  have value : ∀ usePrimary, (sw.source usePrimary).borrow s.world =
      (sw.source usePrimary).borrow final.world :=
    fun usePrimary => sees.data _ (mem_relationships sw usePrimary) _ (sources usePrimary)
  have said : sw.switch.borrow s.world = sw.switch.borrow final.world := sees.data _ listed _ switch
  have primary := sees.hasMutated (mem_relationships sw true) epoch
  have secondary := sees.hasMutated (mem_relationships sw false) epoch
  simp only [Node.triggers, Switch.source, Bool.false_eq_true, if_true,
    if_false] at switched primary secondary
  right
  revert answers
  unfold switchCycle
  simp only [switched, primary, secondary, value, said]
  by_cases first : final.HasBroadcast sw.switch.key
  · simp only [first, decide_true, if_true, Outcome.ret.injEq, settle]
    rintro rfl
    exact ⟨rfl, own.get_put _ _⟩
  · cases flag : (own.get s.world).1 with
    | true =>
      by_cases second : final.HasBroadcast sw.primary.key
      · simp only [first, second, decide_true, decide_false, Bool.and_self, Bool.false_eq_true,
          if_true, if_false, Outcome.ret.injEq, settle, flag, Switch.source]
        rintro rfl
        exact ⟨rfl, own.get_put _ _⟩
      · simp only [first, second, decide_false, Bool.and_false, Bool.not_true, Bool.false_and,
          Bool.false_eq_true, if_true, if_false, Outcome.ret.injEq, settle, flag, Switch.source]
        rintro rfl
        exact ⟨rfl, rfl⟩
    | false =>
      by_cases second : final.HasBroadcast sw.secondary.key
      · simp only [first, second, decide_true, decide_false, Bool.and_self, Bool.not_false,
          Bool.false_and, Bool.false_eq_true, if_true, if_false, Outcome.ret.injEq, settle,
          flag, Switch.source]
        rintro rfl
        exact ⟨rfl, own.get_put _ _⟩
      · simp only [first, second, decide_false, Bool.and_false, Bool.false_and, Bool.false_eq_true,
          if_false, Outcome.ret.injEq, settle, flag, Switch.source]
        rintro rfl
        exact ⟨rfl, rfl⟩

/-- Over the runs of a cycle a switch settles once. -/
theorem settles_trail {final : Executor W} {start last : Bool × T} {verdicts : List Verdict}
    (trail : Steps.Trail (Settles sw answer final) start verdicts last) :
    (last = start ∨ last = (settle sw answer final start).1) ∧
      ∀ control, .returned control ∈ verdicts → control = (settle sw answer final start).2 ∧
      last = (settle sw answer final start).1 := by
  refine trail.inv (p := fun verdicts last => (last = start ∨ last = (settle sw answer final start).1) ∧
    ∀ control, .returned control ∈ verdicts → control = (settle sw answer final start).2 ∧
    last = (settle sw answer final start).1)
    ⟨.inl rfl, fun _ no => by cases no⟩ ?_
  rintro verdicts before verdict after (⟨skipped, rfl⟩ | ⟨rfl, rfl⟩) ⟨reached, told⟩
  · refine ⟨reached, fun control member => told control ?_⟩
    rcases List.mem_cons.mp member with rfl | old
    · simp at skipped
    · exact old
  · have same : settle sw answer final before = settle sw answer final start := by
      rcases reached with rfl | rfl
      · rfl
      · exact settle_settle final start
    rw [same]
    refine ⟨.inr rfl, fun control member => ?_⟩
    rcases List.mem_cons.mp member with here | old
    · cases here
      exact ⟨rfl, rfl⟩
    · exact ⟨(told control old).1, rfl⟩

section Course

variable {seeded : Prop} {polled final : Executor W}

theorem Stretch.settles (stretch : Stretch prog now sw.relationships c polled final)
    (switches : prog.Switches own sw answer c) :
    Steps.Trail (Settles sw answer final) (own.get polled.world) (final.verdicts c)
      (own.get final.world) := by
  have plain : ∀ s ctx, ∀ effect ∈ (prog.cycleFn s ctx c).1, ∃ f, effect = .handle (.update f) := by
    intro s ctx effect
    rw [switches.runs]
    unfold switchCycle
    dsimp only
    split_ifs <;> simp +contextual
  refine stretch.trail switches.spares stretch.turns .refl (stretch.unpanicked plain fun s ctx => ?_)
    (fun a verdict skipped => .inl ⟨skipped, rfl⟩) fun s i control sees answers =>
    ⟨fun effect member => ?_, ?_⟩
  · rw [switches.runs]
    unfold switchCycle
    dsimp only
    split_ifs <;> simp
  · obtain ⟨f, rfl⟩ := plain _ _ effect member
    trivial
  · rw [switches.runs] at answers ⊢
    exact switchCycle_settles rfl sees switches.sources switches.switch answers

/-- A switch that is not swept ends the node loop settled. -/
theorem Course.settled (course : Course prog now sw.relationships c seeded polled final)
    (switches : prog.Switches own sw answer c)
    (unswept : ∀ run ∈ final.runs, run.node = c → ¬ run.Swept) :
    own.get final.world = (settle sw answer final (own.get polled.world)).1 ∧
      (final.HasBroadcast c ↔ (settle sw answer final (own.get polled.world)).2 = .broadcast) := by
  have trail := course.settles switches
  rw [hasBroadcast_iff]
  by_cases runs : ∃ run ∈ final.runs, run.node = c
  · obtain ⟨run, member, node⟩ := runs
    obtain ⟨-, told⟩ := settles_trail trail
    have listed : run.verdict ∈ final.verdicts c :=
      List.mem_map_of_mem (List.mem_filter.mpr ⟨member, by simpa using node⟩)
    rcases course.control_of_run member (unswept run member node) with unchanged | broadcast
    · rw [unchanged] at listed
      obtain ⟨control, last⟩ := told _ listed
      refine ⟨last, fun member => (told _ member).1.symm, fun broadcast => ?_⟩
      rw [← control] at broadcast
      cases broadcast
    · rw [broadcast] at listed
      obtain ⟨control, last⟩ := told _ listed
      exact ⟨last, fun _ => control.symm, fun _ => listed⟩
  · -- no source has broadcast
    have quiet : ∀ {kr}, kr ∈ sw.relationships → kr.2 = .trigger → ¬ final.HasBroadcast kr.1 := by
      rintro ⟨k, r⟩ declared rfl broadcast
      exact runs (course.runs_of_broadcast declared broadcast)
    have switched : ¬ final.HasBroadcast sw.switch.key :=
      quiet (by simp [Switch.relationships] : sw.switch.triggers ∈ sw.relationships) rfl
    have followed : ∀ usePrimary, ¬ final.HasBroadcast (sw.source usePrimary).key :=
      fun usePrimary => quiet (mem_relationships sw usePrimary) rfl
    have none : final.verdicts c = [] := by
      rw [verdicts, List.map_eq_nil_iff, List.filter_eq_nil_iff]
      intro run member node
      exact runs ⟨run, member, by simpa using node⟩
    rw [none] at trail
    rw [trail.eq_of_nil, none]
    simp [settle, switched, followed]

end Course

theorem Pass.settles {fuel : Nat} {input : CycleInput} {ex last swept : Executor W}
    (pass : Pass prog fuel input ex last swept) (idle : ex.Idle) (few : ex.cycles + 1 < 2 ^ 64)
    (manuals : last.All Event.ManualPresent) (lineage : Lineage sw.relationships c ex)
    (switches : prog.Switches own sw answer c) (survives : swept.Present c) :
    own.get last.world = (settle sw answer last (own.get ex.world)).1 ∧
      (last.HasBroadcast c ↔ (settle sw answer last (own.get ex.world)).2 = .broadcast) := by
  obtain ⟨now, polled, final, s, polls, rfl, course⟩ :=
    pass.course idle few manuals lineage (pass.present idle lineage.built survives)
  have settled := course.settled switches (pass.unswept idle lineage.built survives)
  rw [world_poll polls] at settled
  exact settled

theorem MadeFrom.begins {exits : Exit → Prop} {initial : T} {ex : Executor W}
    (made : sw.MadeFrom exits own initial answer c ex) :
    ex.From exits ∧ Lineage sw.relationships c ex ∧
      own.get ex.world = (sw.switch.borrow ex.world, initial) := by
  obtain ⟨prog, index, order, before, switches, apart, constructed⟩ := made
  refine ⟨constructed.after, constructed.lineage, ?_⟩
  apply constructed.world (p := fun w => own.get w = (sw.switch.borrow w, initial))
  · apply Program.DropsKeep.of_left (Program.DropsKeep.left_both switches.spares.drops switches.switch.drops)
    intro w w' same start
    rw [Prod.mk.injEq] at same
    obtain ⟨data, flag⟩ := same
    rw [data, Node.borrow, flag]
    exact start
  · show own.get (own.put (sw.switch.borrow before.world, initial) before.world) = _
    rw [own.get_put, Switch.init, Node.borrow, Node.borrow, apart]

/-! ## `switch_node` -/

section Value

/-- The switch shows the selected source, from its first broadcast on, and it broadcasts
when its selection does. -/
structure Shows (own : Cell W (Bool × T)) (sw : Switch W T) (c : Key) (history : List (Executor W))
    (w : W) : Prop where
  value : (∃ last ∈ history, last.HasBroadcast c) → (own.get w).2 = (sw.source (sw.switch.borrow w)).borrow w
  speaks : ∀ last ∈ history, last.HasBroadcast c ↔
    last.HasBroadcast sw.switch.key ∨ last.HasBroadcast (sw.source (sw.switch.borrow last.world)).key

/-- Its copy of the selection is up to date as well. -/
def Follows (own : Cell W (Bool × T)) (sw : Switch W T) (c : Key) (history : List (Executor W))
    (w : W) : Prop :=
  (own.get w).1 = sw.switch.borrow w ∧ Shows own sw c history w

/-- One cycle. -/
theorem Follows.pass {history : List (Executor W)} {ex last : Executor W}
    (follows : Follows own sw c history ex.world) (switch : Announces sw.switch ex last)
    (sources : ∀ usePrimary, Announces (sw.source usePrimary) ex last)
    (data : own.get last.world = (settle sw (fun _ => .broadcast) last (own.get ex.world)).1)
    (speaks : last.HasBroadcast c ↔ (settle sw (fun _ => .broadcast) last (own.get ex.world)).2 =
      .broadcast) :
    Follows own sw c (history ++ [last]) last.world := by
  obtain ⟨flag, shows⟩ := follows
  have spoken : (last.HasBroadcast c ↔
      last.HasBroadcast sw.switch.key ∨ last.HasBroadcast (sw.source (sw.switch.borrow last.world)).key) →
      ∀ s ∈ history ++ [last], s.HasBroadcast c ↔
        s.HasBroadcast sw.switch.key ∨ s.HasBroadcast (sw.source (sw.switch.borrow s.world)).key := by
    intro now s member
    rcases List.mem_append.mp member with old | new
    · exact shows.speaks s old
    · rwa [List.mem_singleton.mp new]
  by_cases switched : last.HasBroadcast sw.switch.key
  · simp only [settle, switched, if_true, iff_true] at data speaks
    refine ⟨?_, fun _ => ?_, spoken (by simp [switched, speaks])⟩
    · rw [data]
    · rw [data]
  · have still : sw.switch.borrow last.world = sw.switch.borrow ex.world := by
      by_contra changed
      exact switched (switch changed)
    simp only [settle, switched, if_false, flag] at data speaks
    by_cases followed : last.HasBroadcast (sw.source (sw.switch.borrow ex.world)).key
    · simp only [followed, if_true, iff_true] at data speaks
      refine ⟨?_, fun _ => ?_, spoken (by simp [still, followed, speaks])⟩
      · rw [data, still]
      · rw [data, still]
    · simp only [followed, if_false, reduceCtorEq, iff_false] at data speaks
      have same : (sw.source (sw.switch.borrow ex.world)).borrow last.world =
          (sw.source (sw.switch.borrow ex.world)).borrow ex.world := by
        by_contra changed
        exact followed (sources _ changed)
      refine ⟨?_, fun before => ?_, spoken (by simp [still, followed, switched, speaks])⟩
      · rw [data, still, flag]
      · rw [data, still, same]
        apply shows.value
        obtain ⟨s, member, told⟩ := before
        rcases List.mem_append.mp member with old | new
        · exact ⟨s, old, told⟩
        · rw [List.mem_singleton.mp new] at told
          exact absurd told speaks

end Value

/-- The data of two feeds, of a lever and of a switch. -/
structure Feeds (T : Type) where
  primary : T
  secondary : T
  lever : Bool
  shown : Bool × T
  deriving DecidableEq, Repr

section Stream

variable {own : Cell W (Bool × List T)} {sw : Switch W (List T)}

/-- What the selecting node said when the stream switch last ran, or when it was made. -/
def selection (sw : Switch W (List T)) (c : Key) (first : Executor W) (past : List (Executor W)) : Bool :=
  sw.switch.borrow (latest first (past.filter fun last => decide (last.HasReturned c))).world

/-- If the stream switch broadcasts in the cycle, the selected source did, or the selection is
not that of the node's previous run. -/
def Fresh (sw : Switch W (List T)) (c : Key) (first : Executor W) (past : List (Executor W))
    (last : Executor W) : Prop :=
  last.HasBroadcast c → last.HasBroadcast (sw.source (sw.switch.borrow last.world)).key ∨
    sw.switch.borrow last.world ≠ selection sw c first past

instance (sw : Switch W (List T)) (c : Key) (first : Executor W) (past : List (Executor W))
    (last : Executor W) :
    Decidable (Fresh sw c first past last) := inferInstanceAs (Decidable (_ → _))

end Stream

end Executor
end Wavelet
