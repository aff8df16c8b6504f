import Wavelet.Wsnl.Logic

/-!
# Networks of logic nodes

Logic nodes over other nodes, or over each other. A network is evaluated step by step, each
node when an input of it broadcasts. That keeps every node at the value of its formula, once the
yield of its `on_init` has run it for the first time.
-/

namespace Wavelet

variable {W : Type}

/-- Logic nodes over other nodes, their leaves. No two are one node of the graph, and each has
its own data. -/
structure Network (W : Type) where
  gates : List (LogicNode W)
  leaves : List (Node W Bool)
  wired : ∀ g ∈ gates, Gate.Wired (· ∈ gates) (· ∈ leaves) g.left ∧
    Gate.Wired (· ∈ gates) (· ∈ leaves) g.right
  distinct : ∀ g ∈ gates, ∀ h ∈ gates, g.key = h.key → g = h
  apart : ∀ g ∈ gates, ∀ n, Gate.Wired (· ∈ gates) (· ∈ leaves) n → n.key ≠ g.key → g.output.data.Apart n.data

def Network.Contains (N : Network W) (n : Node W Bool) : Prop := Gate.Wired (· ∈ N.gates) (· ∈ N.leaves) n

/-- The logic nodes of the network are logic nodes of the program. -/
def Program.Computes (prog : Program W) (N : Network W) : Prop := ∀ g ∈ N.gates, prog.Runs g

namespace Executor

/-- A cycle up to the end of its sweep: where it starts, where its node loop ends, and where
its sweep does. -/
structure Lap (W : Type) where
  start : Executor W
  last : Executor W
  swept : Executor W

/-- The operation leaves alone what the nodes hold that have been built. -/
def SparesBuilt (N : Network W) (ex : Executor W) (op : ExecOp W) : Prop :=
  ∀ n, N.Contains n → n.key < ex.inners.length → op.Leaves n.data

/-- A run in which a network comes to be: its logic nodes are built by their constructors at
any time between two cycles, or by a deferred subgraph at the end of one, and its leaves announce
their changes. The cycles are recorded, the latest first. -/
inductive Growth (N : Network W) : List (Lap W) → Executor W → Prop
  | start (cfg mode world) : Growth N [] (withConfig cfg mode world)
  | op (prog op) {laps ex ex'} : Growth N laps ex → prog.Computes N → SparesBuilt N ex op →
      (∀ args, op = .build args → ∀ g ∈ N.gates, g.key ≠ ex.inners.length) →
      ex.execOp prog op = .ok ex' → Growth N laps ex'
  | gate (prog g index order) {laps ex ex'} : Growth N laps ex → prog.Computes N → g ∈ N.gates →
      g.key = ex.inners.length →
      (∀ kr ∈ g.relationships, kr.1 < ex.inners.length) →
      ex.execOps prog (g.withBootstrap index order) = .ok ex' → Growth N laps ex'
  | opens (tickets) {laps ex} : Growth N laps ex → Growth N laps { ex with deferredSpawns := tickets }
  | closes (prog ticket) {laps ex} : Growth N laps ex → prog.Computes N →
      Growth N laps (ex.dropOwner prog (.spawn ticket))
  | pass (prog fuel input) {laps ex last swept} : Growth N laps ex → prog.Computes N →
      Pass prog fuel input ex last swept →
      (∀ n ∈ N.leaves, n.key < ex.inners.length → Announces n ex last) →
      Growth N (⟨ex, last, swept⟩ :: laps) swept

/-- A cycle has started since the node was built. -/
def Seen (laps : List (Lap W)) (g : LogicNode W) : Prop := ∃ lap ∈ laps, g.key < lap.start.inners.length

variable {N : Network W} {laps : List (Lap W)} {prog : Program W} {g : LogicNode W} {ex ex' : Executor W}

theorem Growth.idle (growth : Growth N laps ex) : ex.Idle := by
  induction growth with
  | start cfg mode world => exact ⟨[], .start ⟨cfg, mode, world, rfl⟩⟩
  | op prog op _ _ _ _ applied ih => exact ih.op applied
  | gate prog g index order _ _ _ _ _ applied ih => exact ih.ops applied
  | opens tickets _ ih =>
    obtain ⟨history, life⟩ := ih
    exact ⟨_, life.opens tickets⟩
  | closes prog ticket _ _ ih =>
    obtain ⟨history, life⟩ := ih
    exact ⟨_, life.closes prog ticket trivial⟩
  | pass prog fuel input _ _ pass _ ih =>
    obtain ⟨history, life⟩ := ih
    exact ⟨_, life.pass prog fuel input trivial pass trivial⟩

/-- The constructor of a logic node. -/
structure Bootstrapped (g : LogicNode W) (before ex : Executor W) : Prop where
  path : Path before ex
  nodes : ex.inners.length = g.key + 1
  lineage : Lineage g.relationships g.key ex
  waiting : Waiting g ex
  yields : before.eventDriver.yieldDriver <+: ex.eventDriver.yieldDriver

theorem bootstrapped {index : NodeIndex} {order : HashOrder} (idle : ex.Idle)
    (next : g.key = ex.inners.length) (known : ∀ kr ∈ g.relationships, kr.1 < ex.inners.length)
    (built : ex.execOps prog (g.withBootstrap index order) = .ok ex') :
    Bootstrapped g ex ex' := by
  have path := execOps_path prog built
  have yields := yieldDriver_execOps built
  rw [LogicNode.withBootstrap, execOps, List.foldlM_append] at built
  obtain ⟨mid, constructs, yielded⟩ := Steps.bind_ok' built
  have registers : Path mid ex' := execOps_path prog yielded
  cases yielded
  have made : Constructed prog (g.output.data.put false) (g.args index order) g.key ex mid :=
    ⟨idle, next.symm, by rwa [next], constructs⟩
  have placed : (mid.inner g.key).index = index := by
    obtain ⟨depth, graph, -, -, -, steps⟩ := made.steps
    have seated :=
      Path.seated steps
      (show g.key < (ex.inners ++ [_]).length by rw [List.length_append, next]; exact Nat.lt_succ_self _)
    rw [seated.index, inner_insertNode, if_pos next]
    rfl
  refine ⟨path, made.nodes, registers.lineage made.lineage, ?_, yields⟩
  show (mid.inner g.key).index ∈ (mid.eventDriver.yieldDriver ++ [mid.ref (.raw index)]).map (·.index)
  rw [placed, List.map_append]
  exact List.mem_append_right _ (List.mem_singleton_self _)

/-! ### Every node of a growing network -/

/-- A logic node that is built after a step was built before it or in it. -/
theorem built_of_op {op : ExecOp W}
    (none : ∀ args, op = .build args → ∀ g ∈ N.gates, g.key ≠ ex.inners.length)
    (applied : ex.execOp prog op = .ok ex') (member : g ∈ N.gates)
    (built : g.key < ex'.inners.length) : g.key < ex.inners.length := by
  rcases nodes_execOp applied with same | ⟨⟨args, builds⟩, next⟩
  · rwa [same] at built
  · have other := none args builds g member
    rw [next] at built
    exact Nat.lt_of_le_of_ne (Nat.le_of_lt_succ built) other

theorem built_of_gate {h : LogicNode W} (boots : Bootstrapped h ex ex')
    (next : h.key = ex.inners.length) (whole : h ∈ N.gates) (member : g ∈ N.gates)
    (built : g.key < ex'.inners.length) : g.key < ex.inners.length ∨ g = h := by
  rw [boots.nodes] at built
  rcases Nat.lt_or_eq_of_le (Nat.le_of_lt_succ built) with older | same
  · left
    rwa [← next]
  · exact .inr (N.distinct g member h whole same)

theorem Growth.lineage (growth : Growth N laps ex) (member : g ∈ N.gates) (built : g.key < ex.inners.length) :
    Lineage g.relationships g.key ex := by
  induction growth with
  | start cfg mode world => exact absurd built (Nat.not_lt_zero _)
  | op prog op _ _ _ none applied ih =>
    exact (execOp_path prog applied).lineage (ih (built_of_op none applied member built))
  | gate prog h index order growth _ whole next known applied ih =>
    have boots := bootstrapped growth.idle next known applied
    rcases built_of_gate boots next whole member built with older | rfl
    · exact boots.path.lineage (ih older)
    · exact boots.lineage
  | opens tickets _ ih => exact Path.lineage (.single (.code (.spawns tickets _))) (ih built)
  | @closes prog ticket laps ex growth _ ih =>
    have run := dropOwner_run prog ex (.spawn ticket)
    rw [inners_of_handleRun run] at built
    exact (CodeRun.path run.code).lineage (ih built)
  | pass prog fuel input growth _ pass _ ih =>
    obtain ⟨first, second⟩ := pass.path growth.idle.atRest.wf
    rw [pass.nodes_eq] at built
    exact Path.lineage (first.trans second) (ih built)

/-- Every input of a logic node, be it a leaf or a logic node, announces its changes. -/
theorem Growth.announces {fuel : Nat} {input : CycleInput} {last swept : Executor W}
    (growth : Growth N laps ex) (code : prog.Computes N) (pass : Pass prog fuel input ex last swept)
    (leaves : ∀ n ∈ N.leaves, n.key < ex.inners.length → Announces n ex last) (few : ex.cycles + 1 < 2 ^ 64)
    (manuals : last.All Event.ManualPresent) {n : Node W Bool} (inside : N.Contains n)
    (built : n.key < ex.inners.length) :
    Announces n ex last := by
  obtain leaf | ⟨g, member, rfl⟩ := inside
  · exact leaves n leaf built
  · exact (pass.speaks growth.idle few manuals (growth.lineage member built) (code g member)).mpr

/-- What leaves a logic node and its inputs alone leaves it settled. -/
theorem settled_of_same {w w' : W} (same : ((g.output.borrow w', g.left.borrow w'), g.right.borrow w') =
    ((g.output.borrow w, g.left.borrow w), g.right.borrow w)) (settled : g.Settled w) : g.Settled w' := by
  simp only [Prod.mk.injEq] at same
  show g.output.borrow w' = g.op (g.left.borrow w') (g.right.borrow w')
  rw [same.1.1, same.1.2, same.2]
  exact settled

theorem drops_settled (code : prog.Runs g) : prog.DropsKeep g.Settled := by
  refine Program.DropsKeep.of_left ?_ fun _ _ same => settled_of_same same
  apply Program.DropsKeep.left_both
  · exact Program.DropsKeep.left_both code.output.drops code.left.drops
  · exact code.right.drops

theorem contains (member : g ∈ N.gates) : N.Contains g.output ∧ N.Contains g.left ∧ N.Contains g.right :=
  ⟨.inr ⟨g, member, rfl⟩, N.wired g member⟩

theorem built_of_lineage (lineage : Lineage g.relationships g.key ex) :
    g.output.key < ex.inners.length ∧ g.left.key < ex.inners.length ∧ g.right.key < ex.inners.length := by
  have older := lineage.older
  have first : g.left.key < g.key := older g.left.triggers (by simp [LogicNode.relationships])
  have second : g.right.key < g.key := older g.right.triggers (by simp [LogicNode.relationships])
  exact ⟨lineage.built, Nat.lt_trans first lineage.built, Nat.lt_trans second lineage.built⟩

theorem SparesBuilt.keeps {op : ExecOp W} (spares : SparesBuilt N ex op) (member : g ∈ N.gates)
    (lineage : Lineage g.relationships g.key ex) : op.Keeps g.Settled := by
  obtain ⟨output, left, right⟩ := contains member
  obtain ⟨built, older, older'⟩ := built_of_lineage lineage
  refine ExecOp.keeps_of_left ?_ fun _ _ same => settled_of_same same
  apply ExecOp.left_both
  · exact ExecOp.left_both (spares _ output built) (spares _ left older)
  · exact spares _ right older'

/-- The constructor of another logic node touches only the data of its own. -/
theorem settled_of_gate {h : LogicNode W} {index : NodeIndex} {order : HashOrder} (code : prog.Runs g)
    (applied : ex.execOps prog (h.withBootstrap index order) = .ok ex') (whole : h ∈ N.gates)
    (next : h.key = ex.inners.length) (member : g ∈ N.gates)
    (lineage : Lineage g.relationships g.key ex) (settled : g.Settled ex.world) : g.Settled ex'.world := by
  obtain ⟨output, left, right⟩ := contains member
  obtain ⟨built, older, older'⟩ := built_of_lineage lineage
  have apart : ∀ {n}, N.Contains n → n.key < ex.inners.length → h.output.data.Apart n.data := by
    intro n inside old
    refine N.apart h whole n inside (Nat.ne_of_lt ?_)
    rwa [next]
  refine execOps_world (drops_settled code) (fun op listed => ?_) applied settled
  rcases List.mem_append.mp listed with constructs | yields
  · rcases List.mem_cons.mp constructs with rfl | rest
    · intro w good
      apply settled_of_same _ good
      simp only [Node.borrow, apart output built _ w, apart left older _ w, apart right older' _ w]
    · rcases List.mem_cons.mp rest with rfl | moves
      · trivial
      · obtain ⟨k, -, rfl⟩ := List.mem_map.mp moves
        trivial
  · rw [List.mem_singleton.mp yields]
    trivial

/-- A yield that is queued stays so, and the node keeps its index. -/
theorem Waiting.stays (waiting : Waiting g ex) (path : Path ex ex') (built : g.key < ex.inners.length)
    (yields : ex.eventDriver.yieldDriver <+: ex'.eventDriver.yieldDriver) : Waiting g ex' := by
  obtain ⟨r, member, index⟩ := List.mem_map.mp waiting
  have same : (ex'.inner g.key).index = (ex.inner g.key).index := (Path.seated path built).index
  exact List.mem_map.mpr ⟨r, yields.subset member, index.trans same.symm⟩

/-- Everything from the end of a cycle on. -/
theorem Growth.back (growth : Growth N laps ex) {lap : Lap W} (member : lap ∈ laps) :
    ∃ prog fuel input earlier, Growth N earlier lap.start ∧ prog.Computes N ∧
      Pass prog fuel input lap.start lap.last lap.swept ∧
      Path lap.swept ex := by
  induction growth with
  | start cfg mode world => cases member
  | op prog op _ _ _ _ applied ih =>
    obtain ⟨prog', fuel, input, earlier, before, code, pass, path⟩ := ih member
    exact ⟨prog', fuel, input, earlier, before, code, pass, path.trans (execOp_path prog applied)⟩
  | gate prog h index order _ _ _ _ _ applied ih =>
    obtain ⟨prog', fuel, input, earlier, before, code, pass, path⟩ := ih member
    exact ⟨prog', fuel, input, earlier, before, code, pass, path.trans (execOps_path prog applied)⟩
  | opens tickets _ ih =>
    obtain ⟨prog', fuel, input, earlier, before, code, pass, path⟩ := ih member
    exact ⟨prog', fuel, input, earlier, before, code, pass, path.tail (.code (.spawns tickets _))⟩
  | closes prog ticket _ _ ih =>
    obtain ⟨prog', fuel, input, earlier, before, code, pass, path⟩ := ih member
    exact ⟨prog', fuel, input, earlier, before, code, pass,
      path.trans (CodeRun.path (dropOwner_run prog ..).code)⟩
  | pass prog fuel input growth code pass leaves ih =>
    rcases List.mem_cons.mp member with rfl | old
    · exact ⟨prog, fuel, input, _, growth, code, pass, .refl⟩
    · obtain ⟨prog', fuel', input', earlier, before, code, pass', path⟩ := ih old
      obtain ⟨first, second⟩ := pass.path growth.idle.atRest.wf
      exact ⟨prog', fuel', input', earlier, before, code, pass', path.trans (first.trans second)⟩

theorem Growth.built (growth : Growth N laps ex) (seen : Seen laps g) : g.key < ex.inners.length := by
  obtain ⟨lap, member, built⟩ := seen
  obtain ⟨prog, fuel, input, earlier, before, -, pass, path⟩ := growth.back member
  obtain ⟨first, second⟩ := pass.path before.idle.atRest.wf
  exact (Path.seated (first.trans (second.trans path)) built).built

/-- A logic node in the graph is settled if a cycle has started since it was built; until then
the yield of its `on_init` is queued. -/
theorem Growth.settled (growth : Growth N laps ex) (few : ex.cycles < 2 ^ 64)
    (manuals : ex.All Event.ManualPresent) (member : g ∈ N.gates) (built : g.key < ex.inners.length)
    (present : ex.Present g.key) :
    (Seen laps g → g.Settled ex.world) ∧ (¬ Seen laps g → Waiting g ex) := by
  induction growth with
  | start cfg mode world => exact absurd built (Nat.not_lt_zero _)
  | @op prog op laps ex ex' growth code spares none applied ih =>
    have path := execOp_path prog applied
    have old := built_of_op none applied member built
    obtain ⟨settled, waits⟩ :=
      ih (Nat.lt_of_le_of_lt (Path.cycles_le path) few) (Path.all path manuals) old (path.present old present)
    constructor
    · intro seen
      exact execOp_world (drops_settled (code g member))
        (spares.keeps member (growth.lineage member old)) applied (settled seen)
    · intro unseen
      exact (waits unseen).stays path old (yieldDriver_execOp applied)
  | @gate prog h index order laps ex ex' growth code whole next known applied ih =>
    have boots := bootstrapped growth.idle next known applied
    have path := boots.path
    rcases built_of_gate boots next whole member built with old | rfl
    · obtain ⟨settled, waits⟩ :=
        ih (Nat.lt_of_le_of_lt (Path.cycles_le path) few) (Path.all path manuals) old
        (path.present old present)
      constructor
      · intro seen
        exact settled_of_gate (code g member) applied whole next member (growth.lineage member old)
          (settled seen)
      · intro unseen
        exact (waits unseen).stays path old boots.yields
    · refine ⟨fun seen => ?_, fun _ => boots.waiting⟩
      have built := growth.built seen
      rw [next] at built
      exact absurd built (Nat.lt_irrefl _)
  | opens tickets _ ih => exact ih few manuals built present
  | @closes prog ticket laps ex growth code ih =>
    have run := dropOwner_run prog ex (.spawn ticket)
    have path := CodeRun.path run.code
    rw [inners_of_handleRun run] at built
    obtain ⟨settled, waits⟩ :=
      ih (Nat.lt_of_le_of_lt (Path.cycles_le path) few) (Path.all path manuals) built
      (path.present built present)
    constructor
    · intro seen
      exact dropOwner_world (drops_settled (code g member)) _ (settled seen)
    · intro unseen
      refine (waits unseen).stays path built ?_
      rw [yieldDriver_dropOwner]
  | @pass prog fuel input laps ex last swept growth code pass leaves ih =>
    obtain ⟨first, second⟩ := pass.path growth.idle.atRest.wf
    have fewer := pass.cycles_lt growth.idle.wf few
    rw [pass.nodes_eq] at built
    have seen : Seen (⟨ex, last, swept⟩ :: laps) g := ⟨_, List.mem_cons_self, built⟩
    refine ⟨fun _ => ?_, fun unseen => absurd seen unseen⟩
    have lineage := growth.lineage member built
    have path : Path ex swept := first.trans second
    have listed := Path.all second manuals
    obtain ⟨settled, waits⟩ :=
      ih (Nat.lt_of_succ_lt fewer) (Path.all path manuals) built (path.present built present)
    have before : Waiting g ex ∨ g.Settled ex.world := by
      by_cases old : Seen laps g
      · exact .inr (settled old)
      · exact .inl (waits old)
    obtain ⟨-, older, older'⟩ := built_of_lineage lineage
    obtain ⟨left, right⟩ := N.wired g member
    have ends := pass.settles_logic growth.idle fewer listed lineage (code g member)
      (growth.announces code pass leaves fewer listed left older)
      (growth.announces code pass leaves fewer listed right older') present before
    exact sweepLoop_world (drops_settled (code g member)) pass.sweeps ends

theorem Growth.speaks (growth : Growth N laps ex) (few : ex.cycles < 2 ^ 64)
    (manuals : ex.All Event.ManualPresent) {lap : Lap W} (listed : lap ∈ laps)
    (member : g ∈ N.gates) (built : g.key < lap.start.inners.length) :
    lap.last.HasBroadcast g.key ↔ g.output.borrow lap.swept.world ≠ g.output.borrow lap.start.world := by
  obtain ⟨prog, fuel, input, earlier, before, code, pass, path⟩ := growth.back listed
  obtain ⟨-, second⟩ := pass.path before.idle.atRest.wf
  have fewer := pass.cycles_lt before.idle.wf (Nat.lt_of_le_of_lt (Path.cycles_le path) few)
  have same : g.output.borrow lap.swept.world = g.output.borrow lap.last.world :=
    sweepLoop_world ((code g member).output.drops _) pass.sweeps rfl
  rw [same]
  exact pass.speaks before.idle fewer (Path.all (second.trans path) manuals)
    (before.lineage member built) (code g member)

/-- What the deferred subgraphs of the program build is built as in a growth. -/
def Grows (N : Network W) (prog : Program W) : Prop :=
  ∀ laps ex ex' ticket, Growth N laps ex → ex.execOps prog (prog.spawnFn ex ticket) = .ok ex' →
    Growth N laps ex'

theorem Growth.runSpawns {tickets : List Nat} (growth : Growth N laps ex) (code : prog.Computes N)
    (grows : Grows N prog) (h : Executor.runSpawns prog tickets ex = .ok ex') : Growth N laps ex' := by
  induction tickets generalizing ex with
  | nil =>
    cases h
    exact growth
  | cons ticket rest ih =>
    obtain ⟨mid, spawned, later⟩ := Steps.bind_ok h
    obtain ⟨built, ops, rfl⟩ := Steps.map_ok spawned
    exact ih ((grows _ _ _ ticket (growth.opens rest) ops).closes prog ticket code) later

/-- A cycle that returns `Running`. -/
theorem Growth.cycle {fuel : Nat} {input : CycleInput} (growth : Growth N laps ex)
    (code : prog.Computes N) (grows : Grows N prog)
    (h : Executor.cycle prog fuel input ex = .ok (.running, ex'))
    (leaves : ∀ last, runNodes prog fuel input ex = .ok (.running, last) →
      ∀ n ∈ N.leaves, n.key < ex.inners.length → Announces n ex last) :
    ∃ last swept, Pass prog fuel input ex last swept ∧ Growth N (⟨ex, last, swept⟩ :: laps) ex' := by
  rcases cycle_ok prog h with ⟨no, -⟩ | ⟨-, last, swept, nodes, sweeps, spawns⟩
  · exact absurd rfl no
  · have lap := growth.pass prog fuel input code ⟨nodes, sweeps⟩ (leaves last nodes)
    exact ⟨last, swept, ⟨nodes, sweeps⟩, lap.runSpawns code grows spawns⟩

/-! ## Levers -/

theorem leaves_of_silent {op : ExecOp W} (silent : ∀ f, op ≠ .handle (.update f)) {α : Type}
    (cell : Cell W α) : op.Leaves cell := by
  intro v
  cases op with
  | handle op =>
    cases op with
    | update f => exact absurd rfl (silent f)
    | _ => trivial
  | _ => trivial

/-- Operations that set no data and build none of the logic nodes. -/
theorem Growth.ops {ops : List (ExecOp W)} (growth : Growth N laps ex) (code : prog.Computes N)
    (silent : ∀ op ∈ ops, ∀ f, op ≠ .handle (.update f)) (applied : ex.execOps prog ops = .ok ex')
    (others : ∀ g ∈ N.gates, g.key < ex.inners.length ∨ ex'.inners.length ≤ g.key) : Growth N laps ex' := by
  induction ops generalizing ex with
  | nil =>
    cases applied
    exact growth
  | cons op rest ih =>
    rw [execOps, List.foldlM_cons] at applied
    obtain ⟨mid, first, later⟩ := Steps.bind_ok' applied
    have path : Path mid ex' := execOps_path prog later
    have next : Growth N laps mid := by
      refine growth.op prog op code (fun n _ _ => leaves_of_silent (silent op List.mem_cons_self) _)
        (fun args builds g member => ?_) first
      rcases others g member with old | new
      · exact Nat.ne_of_lt old
      · have made : ex.inners.length < mid.inners.length := by
          cases builds
          obtain ⟨depth, graph, handles, -, -, -, rfl, -⟩ := build_ok first
          show _ < (ex.inners ++ [_]).length
          rw [List.length_append]
          exact Nat.lt_succ_self _
        exact Nat.ne_of_gt (Nat.lt_of_lt_of_le (Path.seated path made).built new)
    refine ih next (fun op member => silent op (List.mem_cons_of_mem _ member)) later fun g member =>
      (others g member).imp_left fun old => ?_
    exact (Path.seated (execOp_path prog first) old).built

/-- Idle cycles. -/
theorem Growth.waits {trace : List Event} {epoch : Nat}
    (growth : Growth N laps (ex.atEpoch epoch trace)) (bound : epoch < 2 ^ 64) (prog) (fuel : Nat)
    (input : CycleInput) (code : prog.Computes N)
    (quiet : ∀ epoch trace, Pass prog fuel input (ex.atEpoch epoch trace)
      (ex.atEpoch ((epoch + 1) % 2 ^ 64) (.began :: trace))
      (ex.atEpoch ((epoch + 1) % 2 ^ 64) (.began :: trace))) (n : Nat) :
    ∃ laps' trace', Growth N laps' (ex.atEpoch ((epoch + n) % 2 ^ 64) trace') ∧
      ∀ event ∈ trace', event = .began ∨ event ∈ trace := by
  let p := fun ex => ∃ laps, Growth N laps ex
  have once : ∀ epoch trace, p (ex.atEpoch epoch trace) →
      p (ex.atEpoch ((epoch + 1) % 2 ^ 64) (.began :: trace)) := by
    rintro epoch trace ⟨laps, growth⟩
    exact ⟨_, growth.pass prog fuel input code (quiet epoch trace) fun _ _ _ => .of_same rfl⟩
  have begins : p (ex.atEpoch epoch trace) := ⟨laps, growth⟩
  obtain ⟨trace', ⟨laps', growth⟩, events⟩ := atEpoch_waits once begins bound n
  exact ⟨laps', trace', growth, events⟩

end Executor

/-- What each node says. -/
abbrev Board := Key → Bool

def lampCell (k : Key) : Cell Board Bool :=
  ⟨fun board => board k, fun on board => Function.update board k on, fun _ _ => Function.update_self ..⟩

def lamp (k : Key) : Node Board Bool := ⟨k, lampCell k⟩

theorem lampCell_apart {k j : Key} (other : k ≠ j) : (lampCell k).Apart (lampCell j) :=
  fun _ _ => Function.update_of_ne other.symm ..

/-- Levers move when the clock does. If node 0 is neither a lever nor a gate it schedules node 2,
which sweeps itself. -/
def wiring (gates : List (Gate Key Bool)) (levers : List Key) : Program Board where
  cycleFn ex ctx k :=
    match gates.find? fun g => g.output == k with
    | some g => LogicNode.cycle (g.map lamp) ex ctx
    | none =>
      if k ∈ levers then
        if ctx.cycleTime.instant = 0 then ([], .ret .unchanged)
        else ([.handle (.update ((lampCell k).modify not))], .ret .broadcast)
      else if k = 0 then ([.scheduleNode 2], .ret .unchanged)
      else ([], .ret (if k = 2 then .sweep else .unchanged))
  onDrop _ _ := []
  spawnFn _ _ := []

/-- The network of the gates and levers. -/
def lamps (gates : List (Gate Key Bool)) (levers : List Key)
    (wired : ∀ g ∈ gates, Gate.Wired (· ∈ gates) (· ∈ levers) g.left ∧
      Gate.Wired (· ∈ gates) (· ∈ levers) g.right) (distinct : (gates.map Gate.output).Nodup) :
    Network Board where
  gates := gates.map (Gate.map lamp)
  leaves := levers.map lamp
  wired := by
    intro g listed
    obtain ⟨g, member, rfl⟩ := List.mem_map.mp listed
    obtain ⟨left, right⟩ := wired g member
    exact ⟨left.map, right.map⟩
  distinct := by
    intro g listed h listed' same
    obtain ⟨g, member, rfl⟩ := List.mem_map.mp listed
    obtain ⟨h, member', rfl⟩ := List.mem_map.mp listed'
    rw [List.inj_on_of_nodup_map distinct member member' same]
  apart := by
    intro g listed n inside other
    obtain ⟨g, member, rfl⟩ := List.mem_map.mp listed
    have shown : ∃ k, n = lamp k := by
      obtain leaf | ⟨h, member, rfl⟩ := inside
      · obtain ⟨k, -, rfl⟩ := List.mem_map.mp leaf
        exact ⟨k, rfl⟩
      · obtain ⟨h, -, rfl⟩ := List.mem_map.mp member
        exact ⟨_, rfl⟩
    obtain ⟨k, rfl⟩ := shown
    exact lampCell_apart other.symm

theorem wiring_encloses (gates : List (Gate Key Bool)) (levers : List Key) (k : Key) :
    (wiring gates levers).Encloses (lamp k) := by
  refine ⟨fun v j other ex ctx data effect member => ?_, fun v ex k op member => ?_,
    fun v ex t op member => ?_⟩
  · have puts : ∀ on (w : Board), (lampCell k).get ((lampCell j).put on w) = (lampCell k).get w :=
      fun on w => lampCell_apart other on w
    simp only [wiring] at member
    split at member
    · rename_i g found
      have own : g.output = j := by simpa using List.find?_some found
      simp only [LogicNode.cycle, Gate.map, own, List.mem_singleton] at member
      subst member
      exact fun w same => (puts _ w).trans same
    · split_ifs at member
      · cases member
      · simp only [List.mem_singleton] at member
        subst member
        exact fun w same => (puts _ w).trans same
      · simp only [List.mem_singleton] at member
        subst member
        trivial
      · cases member
      · cases member
  · cases member
  · cases member

namespace Executor

/-- `(a && b) || (c ^^ d)`. -/
def chainGates : List (Gate Key Bool) := [⟨(· && ·), 0, 1, 4⟩, ⟨(· ^^ ·), 2, 3, 5⟩, ⟨(· || ·), 4, 5, 6⟩]

def chain : Network Board := lamps chainGates [0, 1, 2, 3] (by simp [chainGates, Gate.Wired]) (by decide)

/-- `a`, `c` and `d` are on. -/
def board : Executor Board := withConfig { ioEnabled := false, timerEnabled := false } .spin fun k =>
    [0, 2, 3].contains k

def dark : Executor Board := withConfig { ioEnabled := false, timerEnabled := false } .spin fun _ => false

end Executor
end Wavelet
