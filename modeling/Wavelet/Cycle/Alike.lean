import Wavelet.Runtime.Respects
import Wavelet.Runtime.Spelling

/-!
# Runs of two spellings

The lists of children are all that a run sees of the edges. So two programs that differ in
how they spell the relationships of the nodes they build go through the same cycles, with
states that differ in the order of the edges alone.
-/

namespace Wavelet

abbrev ExecOp.Respelled {W : Type} : ExecOp W → ExecOp W → Prop := ExecOp.Pairs BuildArgs.Respelled

namespace Executor

variable {W : Type} {ex ex' : Executor W}

/-! ## Alike states -/

def rewired (ex : Executor W) (l : List Edge) : Executor W := { ex with graph := ⟨ex.graph.slots, l⟩ }

/-- The states agree in everything but the order of the edges, and no node can tell. -/
def Alike (ex ex' : Executor W) : Prop := ∃ l, ex.graph.Agrees l ∧ ex' = ex.rewired l

theorem Alike.refl (ex : Executor W) : Alike ex ex := ⟨ex.graph.edgeList, fun _ => ⟨rfl, rfl⟩, rfl⟩

theorem Alike.trace (alike : Alike ex ex') : ex'.trace = ex.trace := by
  obtain ⟨l, -, rfl⟩ := alike
  rfl

/-- An update that neither reads nor changes the edges. -/
theorem Alike.update (alike : Alike ex ex') (f : Executor W → Executor W)
    (graph : (f ex).graph.edgeList = ex.graph.edgeList)
    (same : ∀ l, f (ex.rewired l) = (f ex).rewired l) : Alike (f ex) (f ex') := by
  obtain ⟨l, agrees, rfl⟩ := alike
  refine ⟨l, fun i => ?_, same l⟩
  unfold Graph.edges Graph.triggeringEdges
  rw [graph]
  exact agrees i

theorem Alike.log (alike : Alike ex ex') (event : Event) : Alike (ex.log event) (ex'.log event) :=
  alike.update (·.log event) rfl fun _ => rfl

theorem Alike.markForSweep (alike : Alike ex ex') (cause : Cause) (r : Ref) :
    Alike (ex.markForSweep cause r) (ex'.markForSweep cause r) :=
  alike.update (·.markForSweep cause r) rfl fun _ => rfl

/-! ## Programs that do the same -/

end Executor

/-- Two programs that do the same on alike states, up to the spelling of what they build. -/
structure Program.Respelled {W : Type} (p q : Program W) : Prop where
  cycleFn : ∀ ex ex', Executor.Alike ex ex' → ∀ ctx k, q.cycleFn ex' ctx k = p.cycleFn ex ctx k
  onDrop : ∀ ex ex', Executor.Alike ex ex' → ∀ k, q.onDrop ex' k = p.onDrop ex k
  spawnFn : ∀ ex ex', Executor.Alike ex ex' →
    ∀ t, List.Forall₂ ExecOp.Respelled (p.spawnFn ex t) (q.spawnFn ex' t)

namespace Executor

variable {W : Type} {p q : Program W} {ex ex' : Executor W}

theorem scheduleNode_rewired (ex : Executor W) (l : List Edge) (k : Key) :
    (ex.rewired l).scheduleNode k = (ex.scheduleNode k).map (·.rewired l) := by
  have outcome : ∃ o, ex.scheduler.schedule (ex.inner k).index (ex.inner k).depth = o := ⟨_, rfl⟩
  obtain ⟨o, outcome⟩ := outcome
  simp only [Executor.inner] at outcome
  unfold Executor.scheduleNode
  simp only [Executor.log, Executor.inner, rewired, outcome]
  split <;> rfl

theorem Alike.scheduleNode (alike : Alike ex ex') (k : Key) :
    Option.Rel Alike (ex.scheduleNode k) (ex'.scheduleNode k) := by
  obtain ⟨l, agrees, rfl⟩ := alike
  rw [scheduleNode_rewired]
  cases scheduled : ex.scheduleNode k with
  | none => exact .none
  | some s =>
    refine .some ⟨l, ?_, rfl⟩
    have same : s.graph = ex.graph := by
      unfold Executor.scheduleNode at scheduled
      simp only at scheduled
      split at scheduled
      · cases scheduled; rfl
      · cases scheduled; rfl
      · cases scheduled
    rw [same]
    exact agrees

theorem mirrors_alike (respelled : p.Respelled q) : Mirrors p q Alike where
  memory alike := by
    obtain ⟨l, -, rfl⟩ := alike
    rfl
  epoch alike := by
    obtain ⟨l, -, rfl⟩ := alike
    rfl
  keyAt alike i := by
    obtain ⟨l, -, rfl⟩ := alike
    rfl
  update alike m := alike.update (·.withMemory m) rfl fun _ => rfl
  log alike event := alike.update (·.log event) rfl fun _ => rfl
  mark alike r := alike.update (fun s => { s with gc := s.gc ++ [r] }) rfl fun _ => rfl
  scheduleNode alike k := alike.scheduleNode k
  cycleFn alike := respelled.cycleFn _ _ alike
  onDrop alike := respelled.onDrop _ _ alike

/-- What code does keeps two states alike. -/
theorem respects_alike (respelled : p.Respelled q) : Respects (fun _ => false) p q Alike :=
  (mirrors_alike respelled).respects

/-! ## Offers -/

theorem offer_rewired (ex : Executor W) (l : List Edge) (i : NodeIndex) :
    (ex.rewired l).offer i = (ex.offer i).map fun answer => (answer.1, answer.2.rewired l) := by
  have scheduled : (Graph.mk ex.graph.slots l).canSchedule i ex.epoch =
      (ex.graph.canSchedule i ex.epoch).map fun answer => (answer.1, ⟨answer.2.slots, l⟩) := by
    have weight : (Graph.mk ex.graph.slots l).nodeWeight i = ex.graph.nodeWeight i := rfl
    unfold Graph.canSchedule
    rw [weight]
    cases ex.graph.nodeWeight i with
    | none => rfl
    | some ctx =>
      dsimp only
      split <;> rfl
  unfold offer
  simp only [rewired, scheduled]
  cases ex.graph.canSchedule i ex.epoch with
  | none => rfl
  | some answer =>
    simp only [Option.map_some]
    split <;> rfl

theorem Alike.offer (alike : Alike ex ex') (i : NodeIndex) :
    Option.Rel (fun a b => a.1 = b.1 ∧ Alike a.2 b.2) (ex.offer i) (ex'.offer i) := by
  obtain ⟨l, agrees, rfl⟩ := alike
  rw [offer_rewired]
  cases offered : ex.offer i with
  | none => exact .none
  | some answer =>
    obtain ⟨o, s⟩ := answer
    refine .some ⟨rfl, l, fun j => ?_, rfl⟩
    have same := (offer_same offered).edges
    unfold Graph.edges Graph.triggeringEdges
    rw [same]
    exact agrees j

theorem Alike.keyAt (alike : Alike ex ex') (i : NodeIndex) : ex'.keyAt i = ex.keyAt i := by
  obtain ⟨l, -, rfl⟩ := alike
  rfl

theorem Alike.scheduler (alike : Alike ex ex') : ex'.scheduler = ex.scheduler := by
  obtain ⟨l, -, rfl⟩ := alike
  rfl

theorem Alike.eventDriver (alike : Alike ex ex') : ex'.eventDriver = ex.eventDriver := by
  obtain ⟨l, -, rfl⟩ := alike
  rfl

open Pairs

theorem Alike.fire (alike : Alike ex ex') (source : Source) (r : Ref) :
    Both Alike (Executor.fire source ex r) (Executor.fire source ex' r) := by
  have offered := alike.offer r.index
  unfold Executor.fire
  rw [alike.keyAt, alike.scheduler]
  cases answer : ex.offer r.index with
  | none =>
    rw [answer] at offered
    cases answer' : ex'.offer r.index with
    | none => exact .error _
    | some other =>
      rw [answer'] at offered
      cases offered
  | some first =>
    rw [answer] at offered
    cases answer' : ex'.offer r.index with
    | none =>
      rw [answer'] at offered
      cases offered
    | some second =>
      rw [answer'] at offered
      cases offered with
      | some related =>
        obtain ⟨o, s⟩ := first
        obtain ⟨o', s'⟩ := second
        obtain ⟨rfl, alike⟩ := related
        dsimp only
        split
        · exact .error _
        · exact .ok (alike.log _)

theorem Alike.spread (alike : Alike ex ex') (child : NodeIndex) :
    Both Alike (ex.spread child) (ex'.spread child) := by
  have offered := alike.offer child
  unfold Executor.spread
  rw [alike.scheduler]
  cases answer : ex.offer child with
  | none =>
    rw [answer] at offered
    cases answer' : ex'.offer child with
    | none => exact .error _
    | some other =>
      rw [answer'] at offered
      cases offered
  | some first =>
    rw [answer] at offered
    cases answer' : ex'.offer child with
    | none =>
      rw [answer'] at offered
      cases offered
    | some second =>
      rw [answer'] at offered
      cases offered with
      | some related =>
        obtain ⟨o, s⟩ := first
        obtain ⟨o', s'⟩ := second
        obtain ⟨rfl, alike⟩ := related
        exact .ok (alike.log _)

/-! ## Polling -/

theorem Alike.driver (alike : Alike ex ex') (d : EventDriver) :
    Alike { ex with eventDriver := d } { ex' with eventDriver := d } :=
  alike.update (fun s => { s with eventDriver := d }) rfl fun _ => rfl

theorem Alike.drainNotifications (n : Nat) (alike : Alike ex ex') :
    Both Alike (Executor.drainNotifications n ex) (Executor.drainNotifications n ex') := by
  induction n generalizing ex ex' with
  | zero => exact .ok alike
  | succ n ih =>
    rw [Executor.drainNotifications, Executor.drainNotifications, alike.eventDriver]
    split
    · exact .ok alike
    · exact ((alike.driver _).fire _ _).bind fun s s' alike => ih alike

theorem Alike.drainYields (l : List Ref) (alike : Alike ex ex') :
    Both Alike (Executor.drainYields l ex) (Executor.drainYields l ex') := by
  induction l generalizing ex ex' with
  | nil => exact .ok alike
  | cons r rest ih =>
    rw [Executor.drainYields, Executor.drainYields, alike.eventDriver]
    exact ((alike.driver _).fire _ _).bind fun s s' alike => ih alike

theorem Alike.expireTimers (now n : Nat) (timer : TimerDriver) (alike : Alike ex ex') :
    Both Alike (Executor.expireTimers now n timer ex) (Executor.expireTimers now n timer ex') := by
  induction n generalizing ex ex' timer with
  | zero => exact .ok alike
  | succ n ih =>
    rw [Executor.expireTimers, Executor.expireTimers, alike.eventDriver]
    split
    · exact .ok alike
    · split
      · exact ((alike.driver _).fire _ _).bind fun s s' alike => ih _ alike
      · exact .ok alike

theorem Alike.pollInternal (now : Nat) (alike : Alike ex ex') :
    Both Alike (Executor.pollInternal now ex) (Executor.pollInternal now ex') := by
  unfold Executor.pollInternal
  rw [alike.eventDriver]
  refine (alike.drainNotifications _).bind fun s s' alike => ?_
  unfold Executor.pollYields
  rw [alike.eventDriver]
  refine (alike.drainYields _).bind fun s s' alike => ?_
  unfold Executor.pollTimers
  rw [alike.eventDriver]
  split
  · exact .ok alike
  · exact alike.expireTimers ..

theorem Alike.poll (input : CycleInput) (alike : Alike ex ex') :
    Both (fun a b => a.1 = b.1 ∧ Alike a.2 b.2) (Executor.poll input ex) (Executor.poll input ex') := by
  refine (alike.pollInternal _).bind fun s s' alike => ?_
  have reset : Alike s.resetWaker s'.resetWaker := by
    have same := alike.eventDriver
    unfold resetWaker
    rw [same]
    exact alike.driver _
  have timeout : ∀ now, s'.ioTimeout now input.timeout = s.ioTimeout now input.timeout := by
    obtain ⟨l, -, rfl⟩ := alike
    exact fun _ => rfl
  have fast : s'.FastPath input.timeout ↔ s.FastPath input.timeout := by
    obtain ⟨l, -, rfl⟩ := alike
    rfl
  unfold Executor.askIo
  rw [alike.eventDriver]
  split
  · exact .ok ⟨rfl, alike⟩
  · exact .ok ⟨rfl, alike⟩
  · simp only [timeout, fast]
    refine .map (r := Alike) ?_ fun a b alike => ⟨rfl, alike⟩
    unfold pollIo
    refine .foldlM (fun a b event event' (same : event = event') alike => ?_)
      (List.forall₂_same.mpr fun _ _ => rfl) reset
    subst same
    split
    · exact .ok alike
    · split
      · exact .error _
      · exact alike.fire _ _

/-! ## The node loop -/

theorem Alike.markPoisoned (alike : Alike ex ex') (i : NodeIndex) :
    Both Alike (ex.markPoisoned i) (ex'.markPoisoned i) := by
  obtain ⟨l, agrees, rfl⟩ := alike
  have weight : (ex.rewired l).graph.nodeWeight i = ex.graph.nodeWeight i := rfl
  unfold Executor.markPoisoned Graph.markPoisoned
  rw [weight]
  cases ex.graph.nodeWeight i with
  | none => exact .error _
  | some ctx => exact .ok ⟨l, agrees, rfl⟩

theorem Alike.handleControl (alike : Alike ex ex') (run : Run) :
    Both Alike (Executor.handleControl run ex) (Executor.handleControl run ex') := by
  have children : ex'.graph.edges run.index = ex.graph.edges run.index ∧
      ex'.graph.triggeringEdges run.index = ex.graph.triggeringEdges run.index := by
    obtain ⟨l, agrees, rfl⟩ := alike
    exact agrees run.index
  unfold Executor.handleControl
  split
  · rw [children.2]
    refine .foldlM (fun a b child child' (same : child = child') alike => ?_)
      (List.forall₂_same.mpr fun _ _ => rfl) alike
    subst same
    exact alike.spread child
  · have marked := alike.markForSweep .swept ⟨run.index, some run.node⟩
    have kept : (ex'.markForSweep .swept ⟨run.index, some run.node⟩).graph = ex'.graph := rfl
    have kept' : (ex.markForSweep .swept ⟨run.index, some run.node⟩).graph = ex.graph := rfl
    dsimp only
    rw [kept, kept', children.1]
    refine .foldlM (fun a b child child' (same : child = child') alike => ?_)
      (List.forall₂_same.mpr fun _ _ => rfl) marked
    subst same
    exact (alike.markPoisoned child).bind fun s s' alike => alike.spread child
  · exact .ok alike
  · exact .ok alike

/-- Turns that end alike. -/
inductive Turn.Alike : Turn W → Turn W → Prop
  | finished {a b} : Executor.Alike a b → Turn.Alike (.finished a) (.finished b)
  | terminated {a b} : Executor.Alike a b → Turn.Alike (.terminated a) (.terminated b)
  | again {a b} : Executor.Alike a b → Turn.Alike (.again a) (.again b)

theorem Alike.nodeStep (respelled : p.Respelled q) (now : CycleTime) (alike : Alike ex ex') :
    Both Turn.Alike (Executor.nodeStep p now ex) (Executor.nodeStep q now ex') := by
  have popped : ∀ s, Alike { ex with scheduler := s } { ex' with scheduler := s } := fun s =>
    alike.update (fun ex => { ex with scheduler := s }) rfl fun _ => rfl
  have weight : ∀ i, ex'.graph.nodeWeight i = ex.graph.nodeWeight i := by
    obtain ⟨l, -, rfl⟩ := alike
    exact fun _ => rfl
  unfold Executor.nodeStep
  rw [alike.scheduler]
  split
  · exact .ok (.finished (popped _))
  · rename_i i s popping
    refine ((mirrors_alike respelled).graphCycle (i := i) (popped s) now
        (weight i)).bind fun a b related => ?_
    obtain ⟨run, s⟩ := a
    obtain ⟨run', s'⟩ := b
    obtain ⟨rfl, alike⟩ := related
    have ran := alike.update (·.recordRun run) rfl fun _ => rfl
    dsimp only
    split
    · exact .ok (.terminated (ran.log _))
    · exact (ran.handleControl run).bind fun s s' alike => .ok (.again alike)

theorem Alike.nodeLoop (respelled : p.Respelled q) (now : CycleTime) (fuel : Nat) (alike : Alike ex ex') :
    Both (fun a b => a.1 = b.1 ∧ Alike a.2 b.2) (Executor.nodeLoop p now fuel ex)
      (Executor.nodeLoop q now fuel ex') := by
  induction fuel generalizing ex ex' with
  | zero => exact .error _
  | succ fuel ih =>
    rw [Executor.nodeLoop, Executor.nodeLoop]
    refine (alike.nodeStep respelled now).bind fun a b related => ?_
    cases related with
    | finished alike => exact .ok ⟨rfl, alike⟩
    | terminated alike => exact .ok ⟨rfl, alike⟩
    | again alike => exact ih alike

/-! ## Cleanup -/

theorem Alike.removeNode (respelled : p.Respelled q) (alike : Alike ex ex') (i : NodeIndex) :
    Alike (Executor.removeNode p ex i) (Executor.removeNode q ex' i) := by
  refine (respects_alike respelled).removeNode alike fun event => ?_
  obtain ⟨l, agrees, rfl⟩ := alike
  exact ⟨_, agrees.removeNode i, rfl⟩

theorem Alike.sweepLoop (respelled : p.Respelled q) (fuel : Nat) (alike : Alike ex ex') :
    Both Alike (Executor.sweepLoop p fuel ex) (Executor.sweepLoop q fuel ex') := by
  induction fuel generalizing ex ex' with
  | zero => exact .error _
  | succ fuel ih =>
    have marks : ex'.gc = ex.gc := by
      obtain ⟨l, -, rfl⟩ := alike
      rfl
    rw [Executor.sweepLoop, Executor.sweepLoop, marks]
    split
    · exact .ok alike
    · rename_i r rest front
      have popped := alike.update (fun s => { s with gc := rest }) rfl fun _ => rfl
      exact ih (popped.removeNode respelled r.index)

/-! ## Building -/

/-- The builder makes the same node at the same depth, with the same log. -/
theorem Alike.insertNode {a b : BuildArgs} (same : a.Respelled b) {l : List Edge} (depth : Nat)
    {graph : Graph} {l' : List Edge} (agrees : graph.Agrees l') :
    Alike (ex.insertNode a depth graph) ((ex.rewired l).insertNode b depth ⟨graph.slots, l'⟩) := by
  obtain ⟨index, relationships, order, captures, data, spawned, allowPanic⟩ := a
  obtain ⟨index', relationships', order', captures', data', spawned', allowPanic'⟩ := b
  obtain ⟨rfl, strongest, rfl, rfl, rfl, rfl⟩ := same
  have present : (∀ kr ∈ relationships', ex.Present kr.1) ↔ ∀ kr ∈ relationships, ex.Present kr.1 := by
    constructor
    · intro all kr declared
      obtain ⟨r, member⟩ := (said_iff strongest kr.1).mp ⟨_, declared⟩
      exact all (kr.1, r) member
    · intro all kr declared
      obtain ⟨r, member⟩ := (said_iff strongest kr.1).mpr ⟨_, declared⟩
      exact all (kr.1, r) member
  refine ⟨l', agrees, ?_⟩
  have flag : decide (∀ kr ∈ relationships', (ex.rewired l).Present kr.1) =
      decide (∀ kr ∈ relationships, ex.Present kr.1) :=
    decide_eq_decide.mpr present
  unfold Executor.insertNode
  simp only
  rw [flag]
  rfl

/-- Two spellings of a builder give the new node the same depth and the same parents. -/
theorem Alike.build {a b : BuildArgs} (same : a.Respelled b) (alike : Alike ex ex') :
    Both Alike (ex.build a) (ex'.build b) := by
  obtain ⟨l, agrees, rfl⟩ := alike
  have perm : (ex.parents a).Perm ((ex.rewired l).parents b) := by
    refine (ex.parents_stand a).perm ((ex.rewired l).parents_stand b) fun place => ?_
    exact strongest_places same.strongest place
  have orders : (a.order.order (ex.parents a)).Perm (b.order.order ((ex.rewired l).parents b)) :=
    (a.order.perm _).trans (perm.trans (b.order.perm _).symm)
  have inserted := fun depth graph l' (agrees : Graph.Agrees graph l') =>
    @insertNode _ ex a b same l depth graph l' agrees
  unfold Executor.build
  simp only
  rw [← childDepth_perm perm, ← same.index, ← same.captures, ← same.data, ← same.spawned, ← same.allowPanic]
  show Both Alike (if (ex.graph.nodeWeight a.index).isSome then _ else _)
    (if (ex.graph.nodeWeight a.index).isSome then _ else _)
  split
  · exact .error _
  · cases deep : childDepth (ex.parents a) with
    | none => exact .error _
    | some depth =>
      dsimp only
      have added :
          (ex.graph.addNode a.index (.new ⟨ex.inners.length, a.spawned, a.allowPanic⟩ depth)).Agrees l :=
        agrees
      have joined : Option.Rel (fun joined joined' => ∃ l', joined.Agrees l' ∧ joined' = ⟨joined.slots, l'⟩)
          (addEdges a.index (ex.graph.addNode a.index (.new ⟨ex.inners.length, a.spawned, a.allowPanic⟩ depth))
            (a.order.order (ex.parents a)))
          (addEdges a.index
            ((ex.rewired l).graph.addNode a.index
              (.new ⟨(ex.rewired l).inners.length, a.spawned, a.allowPanic⟩ depth))
            (b.order.order ((ex.rewired l).parents b))) :=
        added.addEdges orders
      generalize addEdges a.index (ex.graph.addNode _ _) _ = first at joined ⊢
      generalize addEdges a.index ((ex.rewired l).graph.addNode _ _) _ = second at joined ⊢
      cases joined with
      | none => exact .error _
      | some joined =>
        obtain ⟨l', agrees, rfl⟩ := joined
        apply Both.ok
        have captured : ∀ {s s' : Executor W} o c, Alike s s' → Alike (s.addHandle o c) (s'.addHandle o c) :=
          fun o c alike => alike.update (·.addHandle o c) rfl fun _ => rfl
        refine Pairs.foldl (r := Alike) (fun s s' c alike => captured _ c alike) _ ?_
        exact Pairs.foldl (r := Alike) (fun s s' c alike => captured _ c alike) _ (inserted depth _ l' agrees)

/-! ## Cycles -/

theorem Alike.cycle (respelled : p.Respelled q) (fuel : Nat) (input : CycleInput) (alike : Alike ex ex') :
    Both (fun a b => a.1 = b.1 ∧ Alike a.2 b.2) (Executor.cycle p fuel input ex)
      (Executor.cycle q fuel input ex') := by
  have begun : Alike ex.beginCycle ex'.beginCycle := alike.update beginCycle rfl fun _ => rfl
  have nodes : Both (fun a b => a.1 = b.1 ∧ Alike a.2 b.2) (Executor.runNodes p fuel input ex)
      (Executor.runNodes q fuel input ex') := by
    refine (begun.poll input).bind fun a b related => ?_
    obtain ⟨t, s⟩ := a
    obtain ⟨t', s'⟩ := b
    obtain ⟨rfl, alike⟩ := related
    cases t with
    | none => exact .ok ⟨rfl, alike⟩
    | some now => exact alike.nodeLoop respelled now fuel
  refine nodes.bind fun a b related => ?_
  obtain ⟨exit, s⟩ := a
  obtain ⟨exit', s'⟩ := b
  obtain ⟨rfl, alike⟩ := related
  cases exit with
  | running =>
    refine (alike.sweepLoop respelled fuel).bind fun s s' alike => ?_
    have deferred : s'.deferredSpawns = s.deferredSpawns := by
      obtain ⟨l, -, rfl⟩ := alike
      rfl
    rw [deferred]
    refine ((respects_alike respelled).runSpawns (fun same alike => alike.build same)
        (respelled.spawnFn _ _) _ alike).bind
      fun s s' alike => .ok ⟨rfl, alike⟩
  | terminated => exact .ok ⟨rfl, alike⟩
  | err => exact .ok ⟨rfl, alike⟩

/-! ## Runs -/

/-- Two runs that nobody can tell apart by what their cycles did and left: how each cycle
ended, what ran in the last one, all that ever happened, the nodes with their places, and the
children of each. -/
structure SameCourse (a b : List Exit × Executor W) : Prop where
  exits : a.1 = b.1
  runs : a.2.runs = b.2.runs
  trace : a.2.trace = b.2.trace
  inners : a.2.inners = b.2.inners
  slots : a.2.graph.slots = b.2.graph.slots
  children : ∀ i, a.2.graph.edges i = b.2.graph.edges i ∧
    a.2.graph.triggeringEdges i = b.2.graph.triggeringEdges i
  world : a.2.world = b.2.world

theorem SameCourse.of_alike {exits : List Exit} (alike : Alike ex ex') :
    SameCourse (exits, ex) (exits, ex') := by
  obtain ⟨l, agrees, rfl⟩ := alike
  exact ⟨rfl, rfl, rfl, rfl, rfl, fun i => ⟨(agrees i).1.symm, (agrees i).2.symm⟩, rfl⟩

/-- The operations before a cycle, spelled in two ways, and the same input. -/
def Respelled (round round' : List (ExecOp W) × CycleInput) : Prop :=
  List.Forall₂ ExecOp.Respelled round.1 round'.1 ∧ round.2 = round'.2

theorem Alike.play (respelled : p.Respelled q) (fuel : Nat)
    {script script' : List (List (ExecOp W) × CycleInput)}
    (same : List.Forall₂ Respelled script script') (alike : Alike ex ex') :
    Both (fun a b => a.1 = b.1 ∧ Alike a.2 b.2) (ex.play p fuel script) (ex'.play q fuel script') := by
  induction same generalizing ex ex' with
  | nil => exact .ok ⟨rfl, alike⟩
  | @cons round round' rest rest' first _ ih =>
    obtain ⟨ops, input⟩ := round
    obtain ⟨ops', input'⟩ := round'
    obtain ⟨spelled, same⟩ := first
    replace same : input = input' := same
    subst same
    refine ((respects_alike respelled).execOps
        (fun same alike => alike.build same) spelled alike).bind fun s s' alike => ?_
    refine (alike.cycle respelled fuel input).bind fun a b related => ?_
    obtain ⟨exit, s⟩ := a
    obtain ⟨exit', s'⟩ := b
    obtain ⟨rfl, alike⟩ := related
    refine (ih alike).bind fun a b related => ?_
    refine .ok ⟨?_, related.2⟩
    show exit :: a.1 = exit :: b.1
    rw [related.1]

/-- Two programs that build the same nodes and do the same go through the same run, however
they spell the relationships of their nodes and in whatever order the `parents` maps are
iterated; and every builder whose parents are in the graph gives the new node one edge from
each of them, with the strongest relationship, and the depth below the deepest. -/
theorem spelling_does_not_matter (respelled : p.Respelled q) (cfg : EventDriverConfig)
    (mode : ExecutionMode) (world : W) (fuel : Nat)
    {script script' : List (List (ExecOp W) × CycleInput)} (same : List.Forall₂ Respelled script script') :
    Both SameCourse ((withConfig cfg mode world).play p fuel script)
      ((withConfig cfg mode world).play q fuel script') ∧
      ∀ builds (ex : Executor W), Recorded builds ex → ex.All Event.ParentsPresent →
        ∀ args : BuildArgs, (∀ kr ∈ args.relationships, ex.Present kr.1) →
        ∀ ex', ex.build args = .ok ex' → ex.Joined args ex' := by
  constructor
  · have played := (Alike.refl (withConfig cfg mode world)).play respelled fuel same
    generalize (withConfig cfg mode world).play p fuel script = first at played ⊢
    generalize (withConfig cfg mode world).play q fuel script' = second at played ⊢
    cases played with
    | @ok a b related =>
      obtain ⟨exits, s⟩ := a
      obtain ⟨exits', s'⟩ := b
      obtain ⟨rfl, alike⟩ := related
      exact .ok (.of_alike alike)
    | error e => exact .error e
  · intro builds ex recorded parents args present ex' built
    exact build_joined (recorded.sound parents) present built

/-- The last entry first. -/
def reversed : HashOrder := ⟨List.reverse, List.reverse_perm⟩

/-- Nodes 0 and 1 with a child: three calls, the second of which is repeated as a trigger. -/
def threeCalls : List (ExecOp Unit) :=
  [.build { index := 0 }, .build { index := 1 },
    .build { index := 2, relationships := [(0, .trigger), (1, .observe), (1, .trigger)] },
      .driver (.yieldNow (.node 0))]

/-- The same child in two calls, with the map iterated the other way. -/
def twoCalls : List (ExecOp Unit) :=
  [.build { index := 0 }, .build { index := 1 },
    .build { index := 2, relationships := [(0, .trigger), (1, .trigger)], order := reversed },
      .driver (.yieldNow (.node 0))]

/-- What a run of a script shows: how its cycles ended, the nodes that ran in the last and the edges. -/
def shown (result : Except Failure (List Exit × Executor Unit)) :
    Option (List Exit × List NodeIndex × List Edge) :=
  match result with
  | .ok (exits, ex) => some (exits, ex.runs.map (·.index), ex.graph.edgeList)
  | .error _ => none

theorem relay_spelling_does_not_matter :
    shown (bare.play relay 3 [(threeCalls, instantly)]) =
      some ([.running], [2, 0], [⟨1, 2, .trigger⟩, ⟨0, 2, .trigger⟩]) ∧
    shown (bare.play relay 3 [(twoCalls, instantly)]) =
      some ([.running], [2, 0], [⟨0, 2, .trigger⟩, ⟨1, 2, .trigger⟩]) ∧
    Both SameCourse (bare.play relay 3 [(threeCalls, instantly)])
      (bare.play relay 3 [(twoCalls, instantly)]) ∧
    ∃ ex ex' : Executor Unit, bare.execOps relay [.build { index := 0 }] = .ok ex ∧
      ex.build { index := 1, relationships := [(0, .observe), (0, .trigger)] } = .ok ex' ∧
      ex.Joined { index := 1, relationships := [(0, .observe), (0, .trigger)] } ex' := by
  have spelled : relay.Respelled relay := ⟨fun _ _ _ _ _ => rfl, fun _ _ _ _ => rfl, fun _ _ _ _ => .nil⟩
  have calls :
      BuildArgs.Respelled { index := 2, relationships := [(0, .trigger), (1, .observe), (1, .trigger)] }
      { index := 2, relationships := [(0, .trigger), (1, .trigger)], order := reversed } := by
    refine ⟨rfl, fun p => ?_, rfl, rfl, rfl, rfl⟩
    apply strongest_of_said
    · simp
    · simp [exists_or]
  have alone : ∀ i, BuildArgs.Respelled { index := i } { index := i } :=
    fun i => ⟨rfl, fun _ => rfl, rfl, rfl, rfl, rfl⟩
  have same : List.Forall₂ Respelled [(threeCalls, instantly)] [(twoCalls, instantly)] :=
    .cons ⟨.cons (alone 0) (.cons (alone 1) (.cons calls (.cons rfl .nil))), rfl⟩ .nil
  have law := spelling_does_not_matter spelled { ioEnabled := false, timerEnabled := false } .spin () 3 same
  have built : bare.execOps relay [.build { index := 0 }] = .ok _ := rfl
  exact ⟨by decide, by decide, law.1, _, _, built, rfl,
    law.2 _ _ ((Recorded.initial ..).ops built) (by decide) _ (by decide) _ rfl⟩
end Executor
end Wavelet
