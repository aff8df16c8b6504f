import Wavelet.Runtime.Loop

/-!
# The private data of a program

Only program code changes the data of the nodes. A property of the data that every update of
a program keeps is kept by its destructors, its cycle functions, its deferred subgraphs and
so by a whole cycle. The same goes for a property of the data that also looks at which nodes
are alive, if the end of a life does not break it.
-/

namespace Wavelet

variable {W : Type}

/-- The operation keeps `p` if it changes the data. -/
def HandleOp.Keeps (p : W → Prop) : HandleOp W → Prop
  | .update f => ∀ w, p w → p (f w)
  | .clone .. | .drop .. | .markForSweep _ | .notify _ => True

def Effect.Keeps (p : W → Prop) : Effect W → Prop
  | .handle op => op.Keeps p
  | .driver _ | .scheduleNode _ | .spawnSubgraph _ => True

def ExecOp.Keeps (p : W → Prop) : ExecOp W → Prop
  | .handle op => op.Keeps p
  | .driver _ | .build _ => True

/-- The destructors of a program keep `p`. -/
def Program.DropsKeep (prog : Program W) (p : W → Prop) : Prop :=
  ∀ ex k, ∀ op ∈ prog.onDrop ex k, op.Keeps p

/-- The cycle function of node `k` keeps `p`. -/
def Program.RunsKeep (prog : Program W) (p : W → Prop) (k : Key) : Prop :=
  ∀ ex ctx, p ex.world → ∀ effect ∈ (prog.cycleFn ex ctx k).1, effect.Keeps p

def Program.SpawnsKeep (prog : Program W) (p : W → Prop) : Prop :=
  ∀ ex t, ∀ op ∈ prog.spawnFn ex t, op.Keeps p

/-- All the code of a program keeps `p`. -/
structure Program.Keeps (prog : Program W) (p : W → Prop) : Prop where
  runs : ∀ k, prog.RunsKeep p k
  drops : prog.DropsKeep p
  spawns : prog.SpawnsKeep p

/-- The data of one node among the data of all. -/
structure Cell (W α : Type) where
  get : W → α
  put : α → W → W
  get_put : ∀ a w, get (put a w) = a

/-- What leaves the parts alone that `p` looks at keeps `p`. -/
theorem HandleOp.keeps_of_left {α : Type} {part : W → α} {p : W → Prop} {op : HandleOp W}
    (left : ∀ v, op.Keeps fun w => part w = v) (looks : ∀ w w', part w' = part w → p w → p w') :
    op.Keeps p := by
  cases op with
  | update f => exact fun w good => looks w (f w) (left _ w rfl) good
  | _ => trivial

theorem HandleOp.left_both {α β : Type} {f : W → α} {g : W → β} {op : HandleOp W}
    (first : ∀ v, op.Keeps fun w => f w = v) (second : ∀ v, op.Keeps fun w => g w = v) (v : α × β) :
    op.Keeps fun w => (f w, g w) = v := by
  cases op with
  | update h =>
    rintro w rfl
    rw [Prod.mk.injEq]
    exact ⟨first _ w rfl, second _ w rfl⟩
  | _ => trivial

theorem ExecOp.keeps_of_left {α : Type} {part : W → α} {p : W → Prop} {op : ExecOp W}
    (left : ∀ v, op.Keeps fun w => part w = v) (looks : ∀ w w', part w' = part w → p w → p w') :
    op.Keeps p := by
  cases op with
  | handle op => exact HandleOp.keeps_of_left left looks
  | _ => trivial

theorem ExecOp.left_both {α β : Type} {f : W → α} {g : W → β} {op : ExecOp W}
    (first : ∀ v, op.Keeps fun w => f w = v) (second : ∀ v, op.Keeps fun w => g w = v) (v : α × β) :
    op.Keeps fun w => (f w, g w) = v := by
  cases op with
  | handle op => exact HandleOp.left_both first second v
  | _ => trivial

theorem Program.DropsKeep.of_left {prog : Program W} {α : Type} {part : W → α} {p : W → Prop}
    (left : ∀ v, prog.DropsKeep fun w => part w = v)
    (looks : ∀ w w', part w' = part w → p w → p w') : prog.DropsKeep p :=
  fun ex k op member => HandleOp.keeps_of_left (fun v => left v ex k op member) looks

theorem Program.DropsKeep.left_both {prog : Program W} {α β : Type} {f : W → α} {g : W → β}
    (first : ∀ v, prog.DropsKeep fun w => f w = v) (second : ∀ v, prog.DropsKeep fun w => g w = v)
    (v : α × β) :
    prog.DropsKeep fun w => (f w, g w) = v :=
  fun ex k op member => HandleOp.left_both (fun v => first v ex k op member)
    (fun v => second v ex k op member) v

/-- `k` is the only node whose code changes the cell. -/
structure Program.Spares {α : Type} (prog : Program W) (cell : Cell W α) (k : Key) : Prop where
  runs : ∀ v j, j ≠ k → prog.RunsKeep (fun w => cell.get w = v) j
  drops : ∀ v, prog.DropsKeep fun w => cell.get w = v
  spawns : ∀ v, prog.SpawnsKeep fun w => cell.get w = v

/-! ## Properties of the data and the lives -/

namespace Executor

/-- `ex'` has the epoch of `ex` and no lives that `ex` has not. -/
structure Ages (ex ex' : Executor W) : Prop where
  epoch : ex'.epoch = ex.epoch
  alive : ∀ k, ex'.Alive k → ex.Alive k

namespace Ages

theorem refl (ex : Executor W) : Ages ex ex := ⟨rfl, fun _ alive => alive⟩

theorem trans {a b c : Executor W} (first : Ages a b) (second : Ages b c) : Ages a c :=
  ⟨second.epoch.trans first.epoch, fun k alive => first.alive k (second.alive k alive)⟩

theorem of_code {ex ex' : Executor W} (run : CodeRun ex ex') : Ages ex ex' :=
  ⟨(frame_of_run run).epoch, fun _ => alive_of_code run⟩

theorem of_handles {ex ex' : Executor W} (epoch : ex'.epoch = ex.epoch)
    (handles : ex'.handles = ex.handles) : Ages ex ex' :=
  ⟨epoch, fun k alive => by rwa [Alive, handles] at alive⟩

end Ages

/-- Time does not break `q` as long as the data is left alone. -/
def Lasting (q : Executor W → Prop) : Prop :=
  ∀ ⦃ex ex' : Executor W⦄, Ages ex ex' → ex'.world = ex.world → q ex → q ex'

end Executor

open Executor (Ages Lasting)

/-- The operation keeps `q` from `ex` on if it changes the data. -/
def HandleOp.Carries (q : Executor W → Prop) (ex : Executor W) : HandleOp W → Prop
  | .update f => ∀ s, Ages ex s → q s → q { s with world := f s.world }
  | .clone .. | .drop .. | .markForSweep _ | .notify _ => True

def Effect.Carries (q : Executor W → Prop) (ex : Executor W) : Effect W → Prop
  | .handle op => op.Carries q ex
  | .driver _ | .scheduleNode _ | .spawnSubgraph _ => True

/-- The destructors of a program keep `q`; each is called right after the life of its node. -/
def Program.DropsCarry (prog : Program W) (q : Executor W → Prop) : Prop :=
  ∀ ex mid k, q ex → ex.Alive k → Ages ex mid → ¬ mid.Alive k → ∀ op ∈ prog.onDrop mid k, op.Carries q mid

/-- The cycle function of node `k` keeps `q`. -/
def Program.RunsCarry (prog : Program W) (q : Executor W → Prop) (k : Key) : Prop :=
  ∀ ex i now, q ex → ∀ effect ∈ (prog.cycleFn ex ⟨i, now, ex.epoch⟩ k).1, effect.Carries q ex

theorem Executor.Lasting.world (p : W → Prop) : Lasting fun ex : Executor W => p ex.world :=
  fun ex ex' _ same start => by
    show p ex'.world
    rw [same]
    exact start

/-- The parts that `q` does not look at. -/
theorem Executor.Lasting.frame {q : Executor W → Prop} (lasting : Lasting q) {ex ex' : Executor W}
    (good : q ex) (epoch : ex'.epoch = ex.epoch) (handles : ex'.handles = ex.handles)
    (world : ex'.world = ex.world) : q ex' :=
  lasting (.of_handles epoch handles) world good

theorem HandleOp.Keeps.carries {p : W → Prop} {op : HandleOp W} (keeps : op.Keeps p) (ex : Executor W) :
    op.Carries (fun s => p s.world) ex := by
  cases op with
  | update f => exact fun s _ start => keeps s.world start
  | _ => trivial

theorem Effect.Keeps.carries {p : W → Prop} {effect : Effect W} (keeps : effect.Keeps p) (ex : Executor W) :
    effect.Carries (fun s => p s.world) ex := by
  cases effect with
  | handle op => exact HandleOp.Keeps.carries keeps ex
  | _ => trivial

theorem Program.DropsKeep.carry {prog : Program W} {p : W → Prop} (drops : prog.DropsKeep p) :
    prog.DropsCarry fun s => p s.world :=
  fun _ mid k _ _ _ _ op member => (drops mid k op member).carries mid

theorem Program.RunsKeep.carry {prog : Program W} {p : W → Prop} {k : Key} (runs : prog.RunsKeep p k) :
    prog.RunsCarry (fun s => p s.world) k :=
  fun ex _ _ start effect member => (runs ex _ start effect member).carries ex

namespace Executor

variable {prog : Program W} {q : Executor W → Prop} {p : W → Prop}

/-! ## Handles -/

theorem world_cloneHandle (ex : Executor W) (o : Owner) (k : Key) :
    (ex.cloneHandle o k).world = ex.world := by
  unfold cloneHandle
  split <;> rfl

theorem world_pushNotification (ex : Executor W) (t : Target) : (ex.pushNotification t).world = ex.world := by
  unfold pushNotification
  dsimp only
  split <;> rfl

theorem applyHandleOp_carries (lasting : Lasting q) {dropHandle : Executor W → Owner → Key → Executor W}
    (dropped : ∀ ex o k, q ex → q (dropHandle ex o k)) {start ex : Executor W} {op : HandleOp W}
    (carries : op.Carries q start) (ages : Ages start ex) (good : q ex) :
    q (applyHandleOp dropHandle ex op) := by
  cases op with
  | update f => exact carries ex ages good
  | clone k o => exact lasting (.of_code (cloneHandle_run ex o k).code) (world_cloneHandle ex o k) good
  | drop k o => cases o <;> first | exact good | exact dropped ex _ k good
  | markForSweep t => exact lasting.frame good rfl rfl rfl
  | notify t => exact lasting (.of_code (notify_run ex t).code) (world_pushNotification ex t) good

theorem dropHandleWith_carries (lasting : Lasting q) (drops : prog.DropsCarry q) (depth : Nat)
    (ex : Executor W) (o : Owner) (k : Key) (start : q ex) : q (dropHandleWith prog depth ex o k) := by
  induction depth generalizing ex o k with
  | zero => exact start
  | succ depth ih =>
    rw [dropHandleWith]
    split
    · rename_i held
      have alive : ex.Alive k := List.mem_map.mpr ⟨(o, k), held, rfl⟩
      simp only
      split
      · rename_i left
        exact lasting (.of_code (.single (.handle (.release o k held left)))) rfl start
      · rename_i last
        have ages : Ages ex ((ex.release o k).expire k) :=
          .of_code (.single (.handle (.expire o k held last)))
        apply Steps.foldl_inv (fun s j _ good => ih s _ j good)
        refine (Steps.foldl_inv (p := fun s => Ages ((ex.release o k).expire k) s ∧ q s)
            (fun s op member both => ?_)
          ⟨.refl _, lasting ages rfl start⟩).2
        obtain ⟨ages', good⟩ := both
        refine ⟨ages'.trans (.of_code (applyHandleOp_run (dropHandleWith_run prog depth) s op).code), ?_⟩
        exact applyHandleOp_carries lasting ih (drops ex _ k start alive ages last op member) ages' good
    · exact start

theorem dropHandle_carries (lasting : Lasting q) (drops : prog.DropsCarry q) {ex : Executor W}
    (o : Owner) (k : Key) (start : q ex) : q (ex.dropHandle prog o k) :=
  dropHandleWith_carries lasting drops _ ex o k start

theorem handleOp_carries (lasting : Lasting q) (drops : prog.DropsCarry q) {start ex : Executor W}
    {op : HandleOp W} (carries : op.Carries q start) (ages : Ages start ex) (good : q ex) :
    q (ex.handleOp prog op) :=
  applyHandleOp_carries lasting
    (fun _ o k good => dropHandle_carries lasting drops o k good) carries ages good

theorem dropOwner_carries (lasting : Lasting q) (drops : prog.DropsCarry q) {ex : Executor W}
    (o : Owner) (start : q ex) :
    q (ex.dropOwner prog o) :=
  Steps.foldl_inv (fun _ k _ good => dropHandle_carries lasting drops o k good) start

theorem dropHandle_world (drops : prog.DropsKeep p) {ex : Executor W} (o : Owner) (k : Key)
    (start : p ex.world) :
    p (ex.dropHandle prog o k).world :=
  dropHandle_carries (.world p) drops.carry o k start

theorem handleOp_world (drops : prog.DropsKeep p) {ex : Executor W} {op : HandleOp W} (keeps : op.Keeps p)
    (start : p ex.world) : p (ex.handleOp prog op).world :=
  handleOp_carries (.world p) drops.carry (keeps.carries ex) (.refl ex) start

theorem dropOwner_world (drops : prog.DropsKeep p) {ex : Executor W} (o : Owner) (start : p ex.world) :
    p (ex.dropOwner prog o).world :=
  dropOwner_carries (.world p) drops.carry o start

/-! ## Cycle functions -/

theorem world_driverOp {ex ex' : Executor W} {op : DriverOp} (h : ex.driverOp op = some ex') :
    ex'.world = ex.world := by
  obtain ⟨driver, trace, rfl⟩ := driverOp_ok h
  rfl

theorem world_scheduleNode {ex ex' : Executor W} {k : Key} (h : ex.scheduleNode k = some ex') :
    ex'.world = ex.world := by
  simp only [scheduleNode] at h
  split at h
  · cases h; rfl
  · cases h; rfl
  · cases h

theorem world_spawnSubgraph (ex : Executor W) (captures : List Key) :
    (ex.spawnSubgraph captures).world = ex.world :=
  Steps.foldl_inv (p := fun s : Executor W => s.world = ex.world)
    (fun s k _ same => (world_cloneHandle s _ k).trans same) rfl

theorem applyEffect_carries (lasting : Lasting q) (drops : prog.DropsCarry q)
    {start ex ex' : Executor W} {effect : Effect W} (carries : effect.Carries q start)
    (ages : Ages start ex) (h : ex.applyEffect prog effect = some ex') (good : q ex) :
    q ex' := by
  have code := applyEffect_run prog h
  cases effect with
  | handle op => cases h; exact handleOp_carries lasting drops carries ages good
  | driver op => exact lasting (.of_code code) (world_driverOp h) good
  | scheduleNode k =>
    refine lasting (.of_code code) ?_ good
    simp only [applyEffect] at h
    split at h
    · exact world_scheduleNode h
    · cases h; rfl
  | spawnSubgraph captures =>
    cases h
    exact lasting (.of_code code) (world_spawnSubgraph ex captures) good

theorem applyEffects_carries (lasting : Lasting q) (drops : prog.DropsCarry q) {start : Executor W}
    {effects : List (Effect W)} (carries : ∀ effect ∈ effects, effect.Carries q start)
    {ex : Executor W} (ages : Ages start ex) (good : q ex) :
    q (ex.applyEffects prog effects).2 := by
  induction effects generalizing ex with
  | nil => exact good
  | cons effect rest ih =>
    rw [applyEffects]
    split
    · rename_i next applied
      have first := carries effect List.mem_cons_self
      exact ih (fun e member => carries e (List.mem_cons_of_mem _ member))
        (ages.trans (.of_code (applyEffect_run prog applied)))
        (applyEffect_carries lasting drops first ages applied good)
    · exact good

theorem callCycleFn_carries (lasting : Lasting q) (drops : prog.DropsCarry q) {now : CycleTime}
    {i : NodeIndex} {fn : CycleFn} {ex ex' : Executor W} {v : Verdict}
    (runs : prog.RunsCarry q fn.state) (h : callCycleFn prog now i fn ex = .ok (v, ex'))
    (start : q ex) : q ex' := by
  obtain ⟨answer, finished, after, rfl, applied, ends⟩ := callCycleFn_ok prog h
  have effects := applyEffects_carries lasting drops (runs ex i now start) (.refl ex) start
  rw [applied] at effects
  rcases ends with ⟨control, -, -, -, rfl⟩ | ⟨-, rfl, -⟩
  · split
    · exact lasting.frame effects rfl rfl rfl
    · exact effects
  · exact effects

/-- A run of a node keeps what its cycle function and the destructors keep. -/
theorem graphCycle_carries (lasting : Lasting q) (drops : prog.DropsCarry q) {now : CycleTime} {i : NodeIndex}
    {ex ex' : Executor W} {run : Run} (h : graphCycle prog now i ex = .ok (run, ex'))
    (runs : prog.RunsCarry q run.node) (start : q ex) : q ex' := by
  obtain ⟨ctx, -, -, node, poisoned | spawned | built | dead⟩ := graphCycle_cases prog h
  · obtain ⟨-, -, rfl⟩ := poisoned
    exact start
  · rw [node] at runs
    exact callCycleFn_carries lasting drops runs spawned.2.2 start
  · obtain ⟨-, -, alive, mid, called, rfl⟩ := built
    rw [node] at runs
    have entered : Ages ex (ex.addHandle .running run.node) :=
      .of_code (.single (.handle (.clone .running run.node alive)))
    exact dropHandle_carries lasting drops _ _
      (callCycleFn_carries lasting drops runs called (lasting entered rfl start))
  · obtain ⟨-, -, -, -, rfl⟩ := dead
    exact start

theorem graphCycle_world (drops : prog.DropsKeep p) {now : CycleTime} {i : NodeIndex}
    {ex ex' : Executor W} {run : Run} (h : graphCycle prog now i ex = .ok (run, ex'))
    (runs : prog.RunsKeep p run.node) (start : p ex.world) : p ex'.world :=
  graphCycle_carries (.world p) drops.carry h runs.carry start

/-! ## The rest of a cycle -/

theorem world_offer {i : NodeIndex} {o : Offer} {ex ex' : Executor W}
    (h : ex.offer i = some (o, ex')) : ex'.world = ex.world := by
  rcases offer_cases h with ⟨-, rfl, -⟩ | ⟨_, -, -, -, rfl⟩ | ⟨_, -, -, -, -, rfl⟩ |
    ⟨_, -, -, -, -, -, rfl⟩ <;> rfl

theorem world_fire {source : Source} {r : Ref} {ex ex' : Executor W}
    (h : fire source ex r = .ok ex') : ex'.world = ex.world := by
  obtain ⟨o, mid, offered, -, rfl⟩ := fire_ok h
  exact (world_offer offered :)

theorem world_spread {c : NodeIndex} {ex ex' : Executor W} (h : ex.spread c = .ok ex') :
    ex'.world = ex.world := by
  obtain ⟨o, mid, offered, rfl⟩ := spread_ok h
  exact (world_offer offered :)

theorem Ages.of_offer {i : NodeIndex} {o : Offer} {ex ex' : Executor W}
    (h : ex.offer i = some (o, ex')) : Ages ex ex' :=
  .of_handles (offer_rest h).2.2.2 (handles_offer h)

theorem poll_carries (lasting : Lasting q) {input : CycleInput} {t : Option CycleTime} {ex ex' : Executor W}
    (h : poll input ex = .ok (t, ex')) (start : q ex) : q ex' := by
  refine poll_inv (fun s d good => lasting.frame good rfl rfl rfl)
    (fun source r s s' fired good => ?_) h start
  have same := world_fire fired
  obtain ⟨o, mid, offered, -, rfl⟩ := fire_ok fired
  have ages := Ages.of_offer offered
  exact lasting ⟨ages.epoch, ages.alive⟩ same good

theorem handleControl_carries (lasting : Lasting q) {run : Run} {ex ex' : Executor W}
    (h : handleControl run ex = .ok ex') (start : q ex) : q ex' := by
  refine handleControl_inv (fun s good => lasting.frame good rfl rfl rfl) (fun i s s' poisoned good => ?_)
    (fun c s s' spreads good => ?_) h start
  · obtain ⟨ctx, -, rfl⟩ := markPoisoned_ok poisoned
    exact lasting.frame good rfl rfl rfl
  · have same := world_spread spreads
    obtain ⟨o, mid, offered, rfl⟩ := spread_ok spreads
    have ages := Ages.of_offer offered
    exact lasting ⟨ages.epoch, ages.alive⟩ same good

theorem handles_handleControl {run : Run} {ex ex' : Executor W}
    (h : handleControl run ex = .ok ex') : ex'.handles = ex.handles := by
  refine handleControl_inv (p := fun s => s.handles = ex.handles) (fun _ same => same)
    (fun i s s' poisoned same => ?_)
    (fun c s s' spreads same => ?_) h rfl
  · obtain ⟨ctx, -, rfl⟩ := markPoisoned_ok poisoned
    exact same
  · obtain ⟨o, mid, offered, rfl⟩ := spread_ok spreads
    exact (handles_offer offered).trans same

/-- A turn keeps what the node that runs in it keeps. -/
theorem nodeStep_carries (lasting : Lasting q) (drops : prog.DropsCarry q) {now : CycleTime}
    {ex ex' : Executor W}
    (runs : ∀ i k, ex.scheduler.pop.1 = some i → ex.keyAt i = some k → prog.RunsCarry q k)
    (h : nodeStep prog now ex = .ok (.finished ex') ∨ nodeStep prog now ex = .ok (.terminated ex') ∨
      nodeStep prog now ex = .ok (.again ex')) (start : q ex) : q ex' := by
  have ran : ∀ {i s run mid}, ex.scheduler.pop = (some i, s) →
      graphCycle prog now i { ex with scheduler := s } = .ok (run, mid) →
      q (mid.recordRun run) := by
    intro i s run mid popped ran
    obtain ⟨ctx, there, -, node, -⟩ := graphCycle_ok prog ran
    have here : ex.keyAt i = some run.node := by rw [node, keyAt]; exact congrArg _ there
    have before : q { ex with scheduler := s } := lasting.frame start rfl rfl rfl
    exact lasting.frame (graphCycle_carries lasting drops ran
        (runs i run.node (by rw [popped]) here) before) rfl rfl rfl
  rcases h with finished | terminated | again
  · obtain ⟨s, -, rfl⟩ := nodeStep_finished prog finished
    exact lasting.frame start rfl rfl rfl
  · obtain ⟨i, s, run, mid, popped, cycled, -, rfl⟩ := nodeStep_terminated prog terminated
    exact lasting.frame (ran popped cycled) rfl rfl rfl
  · obtain ⟨i, s, run, mid, popped, cycled, -, handled⟩ := nodeStep_again prog again
    exact handleControl_carries lasting handled (ran popped cycled)

theorem Loop.carries (lasting : Lasting q) (drops : prog.DropsCarry q)
    (runs : ∀ k, prog.RunsCarry q k) {now : CycleTime} {exit : Exit} {ex ex' : Executor W}
    (loop : Loop prog now ex exit ex') (start : q ex) : q ex' := by
  induction loop with
  | finished step => exact nodeStep_carries lasting drops (fun _ k _ _ => runs k) (.inl step) start
  | terminated step => exact nodeStep_carries lasting drops (fun _ k _ _ => runs k) (.inr (.inl step)) start
  | again step _ ih =>
    exact ih (nodeStep_carries lasting drops (fun _ k _ _ => runs k) (.inr (.inr step)) start)

theorem runNodes_carries (lasting : Lasting q) (drops : prog.DropsCarry q)
    (runs : ∀ k, prog.RunsCarry q k) {fuel : Nat} {input : CycleInput} {exit : Exit}
    {ex ex' : Executor W} (h : runNodes prog fuel input ex = .ok (exit, ex'))
    (start : q ex.beginCycle) : q ex' := by
  rcases runNodes_ok prog h with ⟨-, polls⟩ | ⟨now, polled, polls, loop⟩
  · exact poll_carries lasting polls start
  · exact loop.carries lasting drops runs (poll_carries lasting polls start)

theorem removeNode_carries (lasting : Lasting q) (drops : prog.DropsCarry q) {i : NodeIndex}
    {ex : Executor W} (start : q ex) :
    q (removeNode prog ex i) := by
  unfold removeNode
  split
  · exact start
  · exact dropOwner_carries lasting drops _
      (dropOwner_carries lasting drops _ (lasting.frame start rfl rfl rfl))

theorem sweepLoop_carries (lasting : Lasting q) (drops : prog.DropsCarry q) {fuel : Nat} {ex ex' : Executor W}
    (h : sweepLoop prog fuel ex = .ok ex') (start : q ex) : q ex' := by
  induction fuel generalizing ex with
  | zero => cases h
  | succ fuel ih =>
    rw [sweepLoop] at h
    split at h
    · cases h; exact start
    · rename_i r rest front
      have before : q ({ ex with gc := rest } : Executor W) := lasting.frame start rfl rfl rfl
      exact ih h (removeNode_carries lasting drops before)

theorem removeNode_world (drops : prog.DropsKeep p) {i : NodeIndex} {ex : Executor W} (start : p ex.world) :
    p (removeNode prog ex i).world :=
  removeNode_carries (.world p) drops.carry start

theorem sweepLoop_world (drops : prog.DropsKeep p) {fuel : Nat} {ex ex' : Executor W}
    (h : sweepLoop prog fuel ex = .ok ex') (start : p ex.world) : p ex'.world :=
  sweepLoop_carries (.world p) drops.carry h start

theorem world_poll {input : CycleInput} {t : Option CycleTime} {ex ex' : Executor W}
    (h : poll input ex = .ok (t, ex')) :
    ex'.world = ex.world :=
  poll_carries (.world (· = ex.world)) h rfl

theorem world_handleControl {run : Run} {ex ex' : Executor W} (h : handleControl run ex = .ok ex') :
    ex'.world = ex.world :=
  handleControl_carries (.world (· = ex.world)) h rfl

theorem execOp_world (drops : prog.DropsKeep p) {op : ExecOp W} (keeps : op.Keeps p) {ex ex' : Executor W}
    (h : ex.execOp prog op = .ok ex') (start : p ex.world) : p ex'.world := by
  cases op with
  | handle op => cases h; exact handleOp_world drops keeps start
  | driver op =>
    simp only [execOp] at h
    split at h
    · rename_i next applied
      cases h
      rwa [world_driverOp applied]
    · cases h
  | build args =>
    obtain ⟨depth, graph, handles, -, -, -, rfl, -⟩ := build_ok h
    exact start

theorem execOps_world (drops : prog.DropsKeep p) {ops : List (ExecOp W)} (keeps : ∀ op ∈ ops, op.Keeps p)
    {ex ex' : Executor W} (h : ex.execOps prog ops = .ok ex') (start : p ex.world) : p ex'.world :=
  Steps.foldlM_inv (p := fun s : Executor W => p s.world)
    (fun _ op _ member applied good => execOp_world drops (keeps op member) applied good) h start

theorem runSpawns_world (drops : prog.DropsKeep p) (spawns : prog.SpawnsKeep p) {tickets : List Nat}
    {ex ex' : Executor W} (h : runSpawns prog tickets ex = .ok ex') (start : p ex.world) : p ex'.world := by
  induction tickets generalizing ex with
  | nil => cases h; exact start
  | cons ticket rest ih =>
    obtain ⟨mid, spawned, later⟩ := Steps.bind_ok h
    obtain ⟨built, ops, rfl⟩ := Steps.map_ok spawned
    exact ih later (dropOwner_world drops _ (execOps_world drops (spawns _ _) ops start))

/-- A cycle keeps what all the code of its program keeps. -/
theorem cycle_world (keeps : prog.Keeps p) {fuel : Nat} {input : CycleInput} {exit : Exit}
    {ex ex' : Executor W} (h : cycle prog fuel input ex = .ok (exit, ex')) (start : p ex.world) :
    p ex'.world := by
  have nodes : ∀ {exit : Exit} {last : Executor W}, runNodes prog fuel input ex = .ok (exit, last) →
      p last.world :=
    fun ran => runNodes_carries (.world p) keeps.drops.carry (fun k => (keeps.runs k).carry) ran start
  rcases cycle_ok prog h with ⟨-, ran⟩ | ⟨-, mid, swept, ran, sweeps, spawns⟩
  · exact nodes ran
  · exact runSpawns_world keeps.drops keeps.spawns spawns (sweepLoop_world keeps.drops sweeps (nodes ran))

end Executor

/-! ## Cycle functions that update and schedule -/

/-- An update of the data or a call of `schedule_node`. -/
def Effect.Plain : Effect W → Prop
  | .handle (.update _) | .scheduleNode _ => True
  | _ => False

def Effect.onWorld (w : W) : Effect W → W
  | .handle (.update f) => f w
  | _ => w

/-- The node that it schedules. -/
def Effect.scheduled : Effect W → Option Key
  | .scheduleNode k => some k
  | _ => none

namespace Executor

/-- Effects that all run leave the data as the draft says. -/
theorem applyEffects_plain {prog : Program W} {effects : List (Effect W)}
    (plain : ∀ effect ∈ effects, effect.Plain) {ex ex' : Executor W}
    (h : ex.applyEffects prog effects = (true, ex')) :
    ex'.world = effects.foldl Effect.onWorld ex.world := by
  induction effects generalizing ex with
  | nil => cases h; rfl
  | cons effect rest ih =>
    have later : ∀ e ∈ rest, e.Plain := fun e member => plain e (List.mem_cons_of_mem _ member)
    rw [applyEffects] at h
    split at h
    · rename_i next applied
      rw [ih later h, List.foldl_cons]
      have first := plain effect List.mem_cons_self
      cases effect with
      | handle op =>
        cases op with
        | update f => cases applied; rfl
        | _ => exact first.elim
      | driver op => exact first.elim
      | scheduleNode k =>
        simp only [applyEffect] at applied
        split at applied
        · rw [Executor.world_scheduleNode applied]
          rfl
        · cases applied; rfl
      | spawnSubgraph captures => exact first.elim
    · cases h

/-- They all run if there is a queue for every node that they schedule. -/
theorem applyEffects_finishes {prog : Program W} {effects : List (Effect W)}
    (plain : ∀ effect ∈ effects, effect.Plain) {ex : Executor W}
    (queues : ∀ k, .scheduleNode k ∈ effects → (ex.inner k).depth < ex.scheduler.multiQueue.length) :
    (ex.applyEffects prog effects).1 = true := by
  induction effects generalizing ex with
  | nil => rfl
  | cons effect rest ih =>
    have first := plain effect List.mem_cons_self
    rw [applyEffects]
    split
    · rename_i next applied
      have code := applyEffect_run prog applied
      have frame := frame_of_run code
      have length : next.scheduler.multiQueue.length = ex.scheduler.multiQueue.length :=
        Steps.run_inv (p := fun s : Executor W => s.scheduler.multiQueue.length =
            ex.scheduler.multiQueue.length)
          (fun _ _ step same => step.queues.trans same) code rfl
      apply ih (fun e member => plain e (List.mem_cons_of_mem _ member))
      intro k member
      rw [frame.depth, length]
      exact queues k (List.mem_cons_of_mem _ member)
    · rename_i stopped
      cases effect with
      | handle op => cases stopped
      | driver op => exact first.elim
      | scheduleNode k =>
        have bound := queues k List.mem_cons_self
        simp only [applyEffect] at stopped
        split at stopped
        · unfold scheduleNode at stopped
          dsimp only at stopped
          split at stopped
          · cases stopped
          · cases stopped
          · rename_i beyond
            have past := (Scheduler.schedule_eq_outOfBounds_iff.mp beyond).2
            exact absurd bound (Nat.not_lt.mpr past)
        · cases stopped
      | spawnSubgraph captures => exact first.elim

end Executor

/-! ## Cells -/

namespace Cell

variable {α β : Type}

def modify (cell : Cell W α) (f : α → α) (w : W) : W := cell.put (f (cell.get w)) w

def fst (cell : Cell W (α × β)) : Cell W α where
  get w := (cell.get w).1
  put a w := cell.put (a, (cell.get w).2) w
  get_put a w := by rw [cell.get_put]

def snd (cell : Cell W (α × β)) : Cell W β where
  get w := (cell.get w).2
  put b w := cell.put ((cell.get w).1, b) w
  get_put b w := by rw [cell.get_put]

@[simp] theorem get_modify (cell : Cell W α) (f : α → α) (w : W) :
    cell.get (cell.modify f w) = f (cell.get w) :=
  cell.get_put _ w

@[simp] theorem snd_modify_fst (cell : Cell W (α × β)) (f : α → α) (w : W) :
    cell.snd.get (cell.fst.modify f w) = cell.snd.get w := by
  simp [modify, fst, snd, cell.get_put]

@[simp] theorem fst_modify_snd (cell : Cell W (α × β)) (f : β → β) (w : W) :
    cell.fst.get (cell.snd.modify f w) = cell.fst.get w := by
  simp [modify, fst, snd, cell.get_put]

end Cell

end Wavelet
