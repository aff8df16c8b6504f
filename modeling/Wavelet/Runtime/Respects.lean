import Wavelet.Lib.Pairs
import Wavelet.Runtime.Code

/-!
# Relations that program code respects

Two runs are compared by a relation between their states. If related states hold the same
memory and two programs do the same on them, then code that runs in both keeps the relation,
whatever it is, as long as the small changes of the rest of the state do.
-/

namespace Wavelet

/-- The node runs without a change to tell of, or with one. -/
def Outcome.Quiet (outcome : Outcome) : Prop := outcome = .ret .broadcast ∨ outcome = .ret .unchanged

def Verdict.Quiet (verdict : Verdict) : Prop :=
  verdict = .returned .broadcast ∨ verdict = .returned .unchanged

/-- Answers that differ at most in whether a silent node broadcasts. -/
structure SameAnswer {W : Type} (silent : Bool) (answer answer' : List (Effect W) × Outcome) : Prop where
  effects : answer'.1 = answer.1
  outcome : answer'.2 = answer.2 ∨ silent = true ∧ answer.2.Quiet ∧ answer'.2.Quiet

/-- Verdicts that differ at most in whether a silent node broadcasts. -/
def SameVerdict (silent : Bool) (verdict verdict' : Verdict) : Prop :=
  verdict' = verdict ∨ silent = true ∧ verdict.Quiet ∧ verdict'.Quiet

/-- The memory and the event sources, which code changes directly. -/
structure Memory (W : Type) where
  eventDriver : EventDriver
  deferredSpawns : List Nat
  inners : List NodeInner
  handles : List (Owner × Key)
  tickets : Nat
  world : W

/-- Operations that differ at most in what they build. -/
def ExecOp.Pairs {W : Type} (item : BuildArgs → BuildArgs → Prop) : ExecOp W → ExecOp W → Prop
  | .build args, .build args' => item args args'
  | op, op' => op = op'

namespace Executor

open Pairs

variable {W : Type}

/-- The code of `p` keeps `r` in the first state as the code of `q` does in the second. The
silent nodes may broadcast in one and not in the other. -/
structure Respects (silent : Key → Bool) (p q : Program W) (r : Executor W → Executor W → Prop) : Prop where
  handles : ∀ {a b}, r a b → b.handles = a.handles
  index : ∀ {a b}, r a b → ∀ k, (b.inner k).index = (a.inner k).index
  tickets : ∀ {a b}, r a b → b.tickets = a.tickets
  deferredSpawns : ∀ {a b}, r a b → b.deferredSpawns = a.deferredSpawns
  epoch : ∀ {a b}, r a b → b.epoch = a.epoch
  keyAt : ∀ {a b}, r a b → ∀ i, b.keyAt i = a.keyAt i
  setHandles : ∀ {a b}, r a b → ∀ l, r { a with handles := l } { b with handles := l }
  setSpawns : ∀ {a b}, r a b →
    ∀ l t, r { a with deferredSpawns := l, tickets := t } { b with deferredSpawns := l, tickets := t }
  setWorld : ∀ {a b}, r a b → ∀ f : W → W, r { a with world := f a.world } { b with world := f b.world }
  setMutEpoch : ∀ {a b}, r a b → ∀ k epoch, r (a.setMutEpoch k epoch) (b.setMutEpoch k epoch)
  stampLeft : ∀ {a b k}, silent k = true → r a b → ∀ epoch, r (a.setMutEpoch k epoch) b
  stampRight : ∀ {a b k}, silent k = true → r a b → ∀ epoch, r a (b.setMutEpoch k epoch)
  log : ∀ {a b}, r a b → ∀ event, r (a.log event) (b.log event)
  mark : ∀ {a b}, r a b → ∀ ref, r { a with gc := a.gc ++ [ref] } { b with gc := b.gc ++ [ref] }
  notify : ∀ {a b}, r a b → ∀ t, r (a.notify t) (b.notify t)
  driverOp : ∀ {a b}, r a b → ∀ op, Option.Rel r (a.driverOp op) (b.driverOp op)
  scheduleNode : ∀ {a b}, r a b → ∀ k, Option.Rel r (a.scheduleNode k) (b.scheduleNode k)
  cycleFn : ∀ {a b}, r a b → ∀ ctx k, SameAnswer (silent k) (p.cycleFn a ctx k) (q.cycleFn b ctx k)
  onDrop : ∀ {a b}, r a b → ∀ k, q.onDrop b k = p.onDrop a k

namespace Respects

variable {silent : Key → Bool} {p q : Program W} {r : Executor W → Executor W → Prop} {a b : Executor W}

section Reads

variable (respects : Respects silent p q r) (related : r a b)

include respects related

theorem alive (k : Key) : b.Alive k ↔ a.Alive k := by rw [Alive, respects.handles related]; rfl

theorem heldBy (o : Owner) : b.heldBy o = a.heldBy o := by rw [Executor.heldBy, respects.handles related]; rfl

theorem holds (o : Owner) : b.Holds o ↔ a.Holds o := by
  cases o with
  | closure k =>
    show b.keyAt (b.inner k).index = some k ↔ a.keyAt (a.inner k).index = some k
    rw [respects.index related, respects.keyAt related]
  | inner k => exact respects.alive related k
  | spawn t =>
    show t ∈ b.deferredSpawns ↔ t ∈ a.deferredSpawns
    rw [respects.deferredSpawns related]
  | _ => exact .rfl

theorem ref (t : Target) : b.ref t = a.ref t := by
  cases t with
  | node k => rw [Executor.ref, respects.index related]; rfl
  | raw i => rw [Executor.ref, respects.keyAt related]; rfl

end Reads

/-! ## Handles -/

section Code

variable (respects : Respects silent p q r)

include respects

theorem addHandle (related : r a b) (o : Owner) (k : Key) : r (a.addHandle o k) (b.addHandle o k) := by
  unfold Executor.addHandle
  rw [respects.handles related]
  exact respects.setHandles related _

theorem release (related : r a b) (o : Owner) (k : Key) : r (a.release o k) (b.release o k) := by
  unfold Executor.release
  rw [respects.handles related]
  exact respects.setHandles related _

theorem markForSweep (related : r a b) (cause : Cause) (ref : Ref) :
    r (a.markForSweep cause ref) (b.markForSweep cause ref) := by
  unfold Executor.markForSweep
  rw [respects.keyAt related]
  exact respects.log (respects.mark related ref) _

theorem cloneHandle (related : r a b) (o : Owner) (k : Key) : r (a.cloneHandle o k) (b.cloneHandle o k) := by
  unfold Executor.cloneHandle
  simp only [respects.alive related, respects.holds related]
  split
  · exact respects.addHandle related o k
  · exact related

theorem applyHandleOp {drop drop' : Executor W → Owner → Key → Executor W}
    (dropped : ∀ {a b} o k, r a b → r (drop a o k) (drop' b o k)) (related : r a b) (op : HandleOp W) :
    r (Executor.applyHandleOp drop a op) (Executor.applyHandleOp drop' b op) := by
  cases op with
  | update f => exact respects.setWorld related f
  | clone k o => exact respects.cloneHandle related o k
  | drop k o => cases o <;> first | exact related | exact dropped _ k related
  | markForSweep t =>
    show r (a.markForSweep .requested (a.ref t)) (b.markForSweep .requested (b.ref t))
    rw [respects.ref related]
    exact respects.markForSweep related _ _
  | notify t => exact respects.notify related t

theorem dropHandleWith (depth : Nat) (related : r a b) (o : Owner) (k : Key) :
    r (Executor.dropHandleWith p depth a o k) (Executor.dropHandleWith q depth b o k) := by
  induction depth generalizing a b o k with
  | zero => exact related
  | succ depth ih =>
    have released := respects.release related o k
    have expired : r ((a.release o k).expire k) ((b.release o k).expire k) := by
      unfold expire
      rw [respects.index released]
      exact respects.markForSweep (respects.log released _) _ _
    rw [Executor.dropHandleWith, Executor.dropHandleWith]
    simp only [respects.handles related, respects.alive released]
    split
    · split
      · exact released
      · rw [respects.onDrop expired]
        have ran :=
          Pairs.foldl (r := r) (fun _ _ op related => respects.applyHandleOp
            (fun o k related => ih related o k) related op)
          (p.onDrop ((a.release o k).expire k) k) expired
        rw [respects.heldBy ran]
        exact Pairs.foldl (r := r) (fun _ _ j related => ih related (.inner k) j) _ ran
    · exact related

theorem dropHandle (related : r a b) (o : Owner) (k : Key) : r (a.dropHandle p o k) (b.dropHandle q o k) := by
  unfold Executor.dropHandle
  rw [respects.handles related]
  exact respects.dropHandleWith _ related o k

theorem handleOp (related : r a b) (op : HandleOp W) : r (a.handleOp p op) (b.handleOp q op) :=
  respects.applyHandleOp (fun o k related => respects.dropHandle related o k) related op

theorem dropOwner (related : r a b) (o : Owner) : r (a.dropOwner p o) (b.dropOwner q o) := by
  unfold Executor.dropOwner
  rw [respects.heldBy related]
  exact Pairs.foldl (r := r) (fun _ _ k related => respects.dropHandle related o k) _ related

/-! ## Cycle functions -/

theorem spawnSubgraph (related : r a b) (captures : List Key) :
    r (a.spawnSubgraph captures) (b.spawnSubgraph captures) := by
  have queued := respects.setSpawns related (a.deferredSpawns ++ [a.tickets]) (a.tickets + 1)
  unfold Executor.spawnSubgraph
  simp only
  rw [respects.tickets related, respects.deferredSpawns related]
  exact Pairs.foldl (r := r) (fun _ _ k related => respects.cloneHandle related _ k) _ queued

theorem applyEffect (related : r a b) (effect : Effect W) :
    Option.Rel r (a.applyEffect p effect) (b.applyEffect q effect) := by
  cases effect with
  | handle op => exact .some (respects.handleOp related op)
  | driver op => exact respects.driverOp related op
  | scheduleNode k =>
    simp only [Executor.applyEffect, respects.alive related]
    split
    · exact respects.scheduleNode related k
    · exact .some related
  | spawnSubgraph captures => exact .some (respects.spawnSubgraph related captures)

theorem applyEffects (related : r a b) (effects : List (Effect W)) :
    (b.applyEffects q effects).1 = (a.applyEffects p effects).1 ∧
      r (a.applyEffects p effects).2 (b.applyEffects q effects).2 := by
  induction effects generalizing a b with
  | nil => exact ⟨rfl, related⟩
  | cons effect rest ih =>
    have first := respects.applyEffect related effect
    rw [Executor.applyEffects, Executor.applyEffects]
    generalize a.applyEffect p effect = s at first ⊢
    generalize b.applyEffect q effect = s' at first ⊢
    cases first with
    | none => exact ⟨rfl, related⟩
    | some related => exact ih related

theorem callCycleFn (now : CycleTime) (i : NodeIndex) (fn : CycleFn) (related : r a b) :
    Both (fun s t => SameVerdict (silent fn.state) s.1 t.1 ∧ r s.2 t.2) (Executor.callCycleFn p now i fn a)
      (Executor.callCycleFn q now i fn b) := by
  have ran := fun effects => respects.applyEffects related effects
  have same := respects.cycleFn related ⟨i, now, a.epoch⟩ fn.state
  unfold Executor.callCycleFn
  rw [respects.epoch related]
  generalize p.cycleFn a ⟨i, now, a.epoch⟩ fn.state = answer at same ⊢
  generalize q.cycleFn b ⟨i, now, a.epoch⟩ fn.state = answer' at same ⊢
  obtain ⟨effects, outcome⟩ := answer
  obtain ⟨effects', outcome'⟩ := answer'
  obtain ⟨rfl, outcomes⟩ := same
  obtain ⟨finished, related⟩ := ran effects'
  simp only at outcomes ⊢
  rw [finished]
  have refused : Both (fun s t => SameVerdict (silent fn.state) s.1 t.1 ∧ r s.2 t.2)
      (if fn.allowPanic then .error Failure.user else .ok (Verdict.panicked, (a.applyEffects p effects').2))
      (if fn.allowPanic then .error Failure.user else .ok (Verdict.panicked,
        (b.applyEffects q effects').2)) := by
    split
    · exact .error _
    · exact .ok ⟨.inl rfl, related⟩
  rcases outcomes with rfl | ⟨quiet, left, right⟩
  · split
    · refine .ok ⟨.inl rfl, ?_⟩
      dsimp only
      split
      · rw [respects.epoch related]
        exact respects.setMutEpoch related _ _
      · exact related
    · exact refused
  · cases (a.applyEffects p effects').1 with
    | false => rcases left with rfl | rfl <;> rcases right with rfl | rfl <;> exact refused
    | true =>
      -- only one of the two may set its epoch
      rcases left with rfl | rfl <;> rcases right with rfl | rfl
      · refine .ok ⟨.inl rfl, ?_⟩
        dsimp only
        rw [if_pos rfl, if_pos rfl, respects.epoch related]
        exact respects.setMutEpoch related _ _
      · exact .ok ⟨.inr ⟨quiet, .inl rfl, .inr rfl⟩, respects.stampLeft quiet related _⟩
      · exact .ok ⟨.inr ⟨quiet, .inr rfl, .inl rfl⟩, respects.stampRight quiet related _⟩
      · exact .ok ⟨.inl rfl, related⟩

theorem graphCycle (now : CycleTime) {i : NodeIndex} (related : r a b)
    (weight : b.graph.nodeWeight i = a.graph.nodeWeight i) :
    Both (fun s t => (s.1.index = i ∧ t.1.index = i ∧ s.1.node = t.1.node ∧
        SameVerdict (silent s.1.node) s.1.verdict t.1.verdict) ∧ r s.2 t.2)
      (Executor.graphCycle p now i a) (Executor.graphCycle q now i b) := by
  unfold Executor.graphCycle callClosure
  rw [weight]
  split
  · exact .error _
  · split
    · exact .ok ⟨⟨rfl, rfl, rfl, .inl rfl⟩, related⟩
    · rename_i ctx _ _
      simp only [respects.alive related]
      refine Both.map (r := fun s t => SameVerdict (silent ctx.cycleFn.state) s.1 t.1 ∧ r s.2 t.2) ?_
        fun s t same => ⟨⟨rfl, rfl, rfl, same.1⟩, same.2⟩
      split
      · exact respects.callCycleFn now i _ related
      · split
        · refine (respects.callCycleFn now i _ (respects.addHandle related _ _)).map fun s t same =>
            ⟨same.1, ?_⟩
          exact respects.dropHandle same.2 _ _
        · exact .ok ⟨.inl rfl, related⟩

theorem removeNode {i : NodeIndex} (related : r a b)
    (removed : ∀ event, r (Executor.log { a with graph := a.graph.removeNode i } event)
      (Executor.log { b with graph := b.graph.removeNode i } event)) :
    r (Executor.removeNode p a i) (Executor.removeNode q b i) := by
  unfold Executor.removeNode
  rw [respects.keyAt related]
  split
  · exact related
  · exact respects.dropOwner (respects.dropOwner (removed _) _) _

/-! ## Code that builds -/

variable {item : BuildArgs → BuildArgs → Prop}
  (built : ∀ {a b} {args args' : BuildArgs}, item args args' → r a b → Both r (a.build args) (b.build args'))

include built

theorem execOps {ops ops' : List (ExecOp W)} (same : List.Forall₂ (ExecOp.Pairs item) ops ops')
    (related : r a b) :
    Both r (a.execOps p ops) (b.execOps q ops') := by
  refine .foldlM (fun a b op op' same related => ?_) same related
  cases op with
  | handle op =>
    cases same
    exact .ok (respects.handleOp related op)
  | driver op =>
    cases same
    have applied := respects.driverOp related op
    unfold Executor.execOp
    simp only
    generalize a.driverOp op = s at applied ⊢
    generalize b.driverOp op = t at applied ⊢
    cases applied with
    | none => exact .error _
    | some related => exact .ok related
  | build args =>
    cases op' with
    | build args' => exact built same related
    | handle op => cases same
    | driver op => cases same

theorem runSpawns
    (spawned : ∀ {a b}, r a b → ∀ t, List.Forall₂ (ExecOp.Pairs item) (p.spawnFn a t) (q.spawnFn b t))
    (tickets : List Nat) (related : r a b) :
    Both r (Executor.runSpawns p tickets a) (Executor.runSpawns q tickets b) := by
  induction tickets generalizing a b with
  | nil => exact .ok related
  | cons ticket rest ih =>
    have popped : r { a with deferredSpawns := rest } { b with deferredSpawns := rest } := by
      show r _ { b with deferredSpawns := rest, tickets := b.tickets }
      rw [respects.tickets related]
      exact respects.setSpawns related rest a.tickets
    rw [Executor.runSpawns, Executor.runSpawns]
    refine Both.bind (r := r) ?_ fun s t related => ih related
    have ran := respects.execOps built (spawned popped ticket) popped
    exact ran.map fun s t related => respects.dropOwner related _

end Code
end Respects

/-! ## States with the same memory -/

def memory (ex : Executor W) : Memory W :=
  ⟨ex.eventDriver, ex.deferredSpawns, ex.inners, ex.handles, ex.tickets, ex.world⟩

def withMemory (ex : Executor W) (m : Memory W) : Executor W :=
  { ex with
    eventDriver := m.eventDriver
    deferredSpawns := m.deferredSpawns
    inners := m.inners
    handles := m.handles
    tickets := m.tickets
    world := m.world }

/-- Related states hold the same memory, and what code changes there keeps the relation. -/
structure Mirrors (p q : Program W) (r : Executor W → Executor W → Prop) : Prop where
  memory : ∀ {a b}, r a b → b.memory = a.memory
  epoch : ∀ {a b}, r a b → b.epoch = a.epoch
  keyAt : ∀ {a b}, r a b → ∀ i, b.keyAt i = a.keyAt i
  update : ∀ {a b}, r a b → ∀ m, r (a.withMemory m) (b.withMemory m)
  log : ∀ {a b}, r a b → ∀ event, r (a.log event) (b.log event)
  mark : ∀ {a b}, r a b → ∀ ref, r { a with gc := a.gc ++ [ref] } { b with gc := b.gc ++ [ref] }
  scheduleNode : ∀ {a b}, r a b → ∀ k, Option.Rel r (a.scheduleNode k) (b.scheduleNode k)
  cycleFn : ∀ {a b}, r a b → ∀ ctx k, q.cycleFn b ctx k = p.cycleFn a ctx k
  onDrop : ∀ {a b}, r a b → ∀ k, q.onDrop b k = p.onDrop a k

namespace Mirrors

variable {p q : Program W} {r : Executor W → Executor W → Prop} {a b : Executor W}
  (mirrors : Mirrors p q r) (related : r a b)

include mirrors related

theorem eventDriver : b.eventDriver = a.eventDriver := congrArg Memory.eventDriver (mirrors.memory related)

theorem inner (k : Key) : b.inner k = a.inner k := by
  have same : b.inners = a.inners := congrArg Memory.inners (mirrors.memory related)
  rw [Executor.inner, same]
  rfl

theorem ref (t : Target) : b.ref t = a.ref t := by
  cases t with
  | node k => rw [Executor.ref, mirrors.inner related]; rfl
  | raw i => rw [Executor.ref, mirrors.keyAt related]; rfl

/-- A change of the memory that only looks at the memory. -/
theorem change (f : Memory W → Memory W) : r (a.withMemory (f a.memory)) (b.withMemory (f b.memory)) := by
  rw [mirrors.memory related]
  exact mirrors.update related _

theorem driver (d : EventDriver) : r { a with eventDriver := d } { b with eventDriver := d } :=
  mirrors.change related fun m => { m with eventDriver := d }

theorem register (ref : Ref) (d : EventDriver) : r (a.register ref d) (b.register ref d) := by
  unfold Executor.register
  rw [mirrors.keyAt related]
  exact mirrors.log (mirrors.driver related d) _

theorem notify (t : Target) : r (a.notify t) (b.notify t) := by
  have pushed : r (a.pushNotification t) (b.pushNotification t) := by
    have kept : ∀ i, b.Keeps i ↔ a.Keeps i := by
      intro i
      unfold Keeps notices
      rw [mirrors.keyAt related, mirrors.eventDriver related]
    have noted : ∀ {a b : Executor W} ref kept, r a b → r (a.noted ref kept) (b.noted ref kept) := by
      intro a b ref kept related
      unfold Executor.noted
      rw [mirrors.keyAt related]
      exact mirrors.log related _
    unfold pushNotification
    simp only [mirrors.ref related, kept, mirrors.eventDriver related]
    split
    · exact noted _ _ (mirrors.register related _ _)
    · exact noted _ _ related
  unfold Executor.notify wake
  rw [mirrors.eventDriver pushed]
  exact mirrors.driver pushed _

theorem driverOp (op : DriverOp) : Option.Rel r (a.driverOp op) (b.driverOp op) := by
  cases op with
  | yieldNow t =>
    unfold Executor.driverOp
    simp only [mirrors.ref related, mirrors.eventDriver related]
    exact .some (mirrors.register related _ _)
  | registerTimer t when =>
    unfold Executor.driverOp
    simp only [mirrors.ref related, mirrors.eventDriver related]
    cases a.eventDriver.timerDriver with
    | none => exact .none
    | some timer => exact .some (mirrors.register related _ _)
  | deregisterTimer source =>
    unfold Executor.driverOp
    rw [mirrors.eventDriver related]
    cases a.eventDriver.timerDriver with
    | none => exact .none
    | some timer => exact .some (mirrors.driver related _)
  | registerIo t token =>
    unfold Executor.driverOp
    simp only [mirrors.ref related, mirrors.eventDriver related]
    cases a.eventDriver.ioDriver with
    | none => exact .none
    | some io =>
      apply Option.Rel.some
      dsimp only
      split
      · exact mirrors.register related _ _
      · exact related
  | deregisterIo token =>
    unfold Executor.driverOp
    rw [mirrors.eventDriver related]
    cases a.eventDriver.ioDriver with
    | none => exact .none
    | some io => exact .some (mirrors.driver related _)

omit related in
theorem respects : Respects (fun _ => false) p q r where
  handles related := congrArg Memory.handles (mirrors.memory related)
  index related k := by rw [mirrors.inner related]
  tickets related := congrArg Memory.tickets (mirrors.memory related)
  deferredSpawns related := congrArg Memory.deferredSpawns (mirrors.memory related)
  epoch := mirrors.epoch
  keyAt := mirrors.keyAt
  setHandles related l := mirrors.change related fun m => { m with handles := l }
  setSpawns related l t := mirrors.change related fun m => { m with deferredSpawns := l, tickets := t }
  setWorld related f := mirrors.change related fun m => { m with world := f m.world }
  setMutEpoch related k epoch := mirrors.change related fun m =>
    { m with inners := m.inners.set k { m.inners.getD k .uninitialized with mutEpoch := epoch } }
  stampLeft quiet := by cases quiet
  stampRight quiet := by cases quiet
  log := mirrors.log
  mark := mirrors.mark
  notify := mirrors.notify
  driverOp := mirrors.driverOp
  scheduleNode := mirrors.scheduleNode
  cycleFn related ctx k := by
    rw [mirrors.cycleFn related]
    exact ⟨rfl, .inl rfl⟩
  onDrop := mirrors.onDrop

/-- Both runs of a node end the same. -/
theorem graphCycle (now : CycleTime) {i : NodeIndex} (weight : b.graph.nodeWeight i = a.graph.nodeWeight i) :
    Both (fun s t => s.1 = t.1 ∧ r s.2 t.2) (Executor.graphCycle p now i a)
      (Executor.graphCycle q now i b) := by
  refine (mirrors.respects.graphCycle now related weight).imp fun s t same => ⟨?_, same.2⟩
  obtain ⟨⟨index, index', node, verdicts⟩, -⟩ := same
  have verdict := verdicts.resolve_right fun no => by cases no.1
  calc
    s.1 = ⟨s.1.index, s.1.node, s.1.verdict⟩ := rfl
    _ = ⟨t.1.index, t.1.node, t.1.verdict⟩ := by rw [index, index', node, verdict]

end Mirrors
end Executor
end Wavelet
