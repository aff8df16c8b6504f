import Wavelet.Cycle.Order
import Wavelet.Runtime.Ownership

/-!
# Refused upgrades

`Node::upgrade` consumes its handle. It makes an `ExclusiveNode` of it when the strong and
the weak count are both 1, and otherwise returns `None` and drops it. If that handle was the
last one the node dies of the refusal: it is marked, its destructor runs, no `WeakNode` can
be upgraded any more and the next sweep removes it.
-/

namespace Wavelet
namespace Executor

variable {W : Type} (prog : Program W)

/-- `Rc::strong_count`. -/
def strongCount (ex : Executor W) (k : Key) : Nat := ex.handles.countP (·.2 = k)

/-- The `WeakNode` of the closure that `build` makes, as long as the graph keeps it. -/
def closureWeak (ex : Executor W) (k : Key) : Nat :=
  match ex.graph.nodeWeight (ex.inner k).index with
  | some ctx => if ctx.cycleFn.state = k ∧ ¬ ctx.cycleFn.spawned then 1 else 0
  | none => 0

/-- `Rc::weak_count`; `weaks` are the `WeakNode`s of the program, those in the caches of
routers among them. -/
def weakCount (ex : Executor W) (weaks : Nat) (k : Key) : Nat := weaks + ex.closureWeak k

/-- `Node::upgrade` on the handle that `o` holds: whether it gives an `ExclusiveNode`, which
is the same strong handle, and the state after the call. -/
def upgrade (ex : Executor W) (weaks : Nat) (o : Owner) (k : Key) : Bool × Executor W :=
  if ex.strongCount k = 1 ∧ ex.weakCount weaks k = 1 then (true, ex) else (false, ex.dropHandle prog o k)

/-! ## What a refusal may not do -/

/-- Between the two states the index `i` was marked for the sweep. -/
def MarkedSince (i : NodeIndex) (ex ex' : Executor W) : Prop :=
  ∃ cause r occupant past, r.index = i ∧ .marked cause r occupant :: past <:+ ex'.trace ∧ ex.trace <:+ past

/-- Some handle to the node is left that lasts longer than a run of its closure. -/
def HeldOn (ex : Executor W) (k : Key) : Prop := ∃ h ∈ ex.handles, h.1 ≠ .running ∧ h.2 = k

instance (ex : Executor W) (k : Key) : Decidable (ex.HeldOn k) :=
  inferInstanceAs (Decidable (∃ h ∈ ex.handles, _))

/-- The runs of the node's closure that are going on return, and each gives up its handle. -/
def returnRuns (ex : Executor W) (k : Key) : Executor W :=
  (fun s => s.dropHandle prog .running k)^[ex.handles.count (.running, k)] ex

/-- The node is as alive in `ex'` as it was in `ex`: it is alive, so every `WeakNode` to it can be
upgraded, and still is when its closure, if it is running, has returned; nothing was marked and
no destructor ran; and it stays in the graph through whatever comes next, the next cycle and
its sweep, as long as that does not mark it once more. -/
structure Unharmed (ex ex' : Executor W) (k : Key) : Prop where
  alive : ex'.Alive k
  outlives : (ex'.returnRuns prog k).Alive k
  marks : ex'.gc = ex.gc
  silent : ex'.trace = ex.trace
  stays : ∀ later, Path ex' later → ex.Present k → (∀ r ∈ ex.gc, r.index ≠ (ex.inner k).index) →
    ¬ MarkedSince (ex.inner k).index ex' later → later.Present k

/-! ## Marks and removals -/

theorem MarkedSince.later {i : NodeIndex} {ex mid ex' : Executor W} (marked : MarkedSince i ex mid)
    (suffix : mid.trace <:+ ex'.trace) : MarkedSince i ex ex' := by
  obtain ⟨cause, r, occupant, past, index, there, before⟩ := marked
  exact ⟨cause, r, occupant, past, index, there.trans suffix, before⟩

/-- A mark in the queue was there before the step, or the step made it. -/
theorem Micro.marks {ex ex' : Executor W} (step : Micro ex ex') {r : Ref} (member : r ∈ ex'.gc) :
    r ∈ ex.gc ∨ ∃ cause occupant past, ex'.trace = .marked cause r occupant :: past ∧ ex.trace <:+ past := by
  have pushed : ∀ {s : Executor W} {cause : Cause} {q : Ref}, r ∈ (s.markForSweep cause q).gc →
      r ∈ s.gc ∨ r = q :=
    fun member => by simpa [markForSweep, log] using member
  cases step with
  | code step =>
    cases step with
    | handle step =>
      cases step with
      | expire o k =>
        rcases pushed member with old | rfl
        · exact .inl old
        · exact .inr ⟨_, _, _, rfl, List.suffix_cons ..⟩
      | request t =>
        rcases pushed member with old | rfl
        · exact .inl old
        · exact .inr ⟨_, _, _, rfl, List.suffix_refl _⟩
      | _ => exact .inl member
    | _ => exact .inl member
  | mark run there swept ran =>
    rcases pushed member with old | rfl
    · exact .inl old
    · exact .inr ⟨_, _, _, rfl, List.suffix_refl _⟩
  | fire source driver q known sub takes fired =>
    obtain ⟨o, mid, offered, -, rfl⟩ := fire_ok fired
    have same := gc_offer offered
    exact .inl (same ▸ member : r ∈ ({ ex with eventDriver := driver } : Executor W).gc)
  | poison i poisoned =>
    obtain ⟨ctx, there, rfl⟩ := markPoisoned_ok poisoned
    exact .inl member
  | spread child spreads =>
    obtain ⟨o, mid, offered, rfl⟩ := spread_ok spreads
    have same : mid.gc = ex.gc := gc_offer offered
    exact .inl (same ▸ member)
  | discard q rest front vacant =>
    left
    rw [front]
    exact List.mem_cons_of_mem _ member
  | remove q rest j front there rests =>
    left
    rw [front]
    exact List.mem_cons_of_mem _ member
  | _ => exact .inl member

theorem Path.suffix {ex ex' : Executor W} (path : Path ex ex') : ex.trace <:+ ex'.trace := by
  induction path with
  | refl => exact List.suffix_refl _
  | tail _ step ih => exact ih.trans step.trace_suffix

theorem Path.marks {ex ex' : Executor W} (path : Path ex ex') {r : Ref} (member : r ∈ ex'.gc) :
    r ∈ ex.gc ∨ MarkedSince r.index ex ex' := by
  induction path with
  | refl => exact .inl member
  | tail before step ih =>
    rcases step.marks member with old | ⟨cause, occupant, past, trace, earlier⟩
    · exact (ih old).imp_right fun marked => marked.later step.trace_suffix
    · exact .inr ⟨cause, r, occupant, past, rfl, trace ▸ List.suffix_refl _,
        (Path.suffix before).trans earlier⟩

/-- A node that nothing marks stays in the graph. -/
theorem Path.stays {ex ex' : Executor W} (path : Path ex ex') {k : Key} (built : k < ex.inners.length)
    (unmarked : ∀ r ∈ ex.gc, r.index ≠ (ex.inner k).index) (quiet : ¬ MarkedSince (ex.inner k).index ex ex')
    (present : ex.Present k) : ex'.Present k := by
  induction path with
  | refl => exact present
  | tail before step ih =>
    have calm : ¬ MarkedSince (ex.inner k).index ex _ := fun marked => quiet (marked.later step.trace_suffix)
    have seated := Path.seated before built
    refine (step.present seated.built (ih calm)).resolve_right fun removed => ?_
    obtain ⟨⟨r, member, same⟩, -⟩ := removed
    rw [seated.index] at same
    rcases Path.marks before member with old | marked
    · exact unmarked r old same
    · rw [same] at marked
      exact calm marked

/-! ## The refusal -/

variable {prog}

/-- Dropping a handle that is not the last one takes just that handle. -/
theorem dropHandle_spare {ex : Executor W} {o : Owner} {k : Key} (held : (o, k) ∈ ex.handles)
    (spare : (ex.release o k).Alive k) :
    ex.dropHandle prog o k = ex.release o k := by
  rw [dropHandle, ← Nat.succ_pred (Nat.ne_of_gt (List.length_pos_of_mem held)), Nat.succ_eq_add_one,
    dropHandleWith, if_pos held]
  exact if_pos spare

/-- Dropping the last handle marks the node and runs its destructor. -/
theorem dropHandle_last {ex : Executor W} {o : Owner} {k : Key} (held : (o, k) ∈ ex.handles)
    (last : ¬ (ex.release o k).Alive k) :
    HandleRun ((ex.release o k).expire k) (ex.dropHandle prog o k) := by
  rw [dropHandle, ← Nat.succ_pred (Nat.ne_of_gt (List.length_pos_of_mem held)), Nat.succ_eq_add_one,
    dropHandleWith, if_pos held]
  simp only [if_neg last]
  refine .trans ?_ (Steps.foldl_steps (fun s j _ => dropHandleWith_run prog _ s (.inner k) j) _)
  exact Steps.foldl_steps (fun s op _ => applyHandleOp_run (dropHandleWith_run prog _) s op) _

theorem HeldOn.alive {ex : Executor W} {k : Key} (held : ex.HeldOn k) : ex.Alive k := by
  obtain ⟨h, member, -, same⟩ := held
  exact List.mem_map.mpr ⟨h, member, same⟩

/-- The runs of its closure leave a node alive if something else holds on to it. -/
theorem alive_returnRuns_iff (ex : Executor W) (k : Key) : (ex.returnRuns prog k).Alive k ↔ ex.HeldOn k := by
  unfold returnRuns
  generalize count : ex.handles.count (.running, k) = n
  induction n generalizing ex with
  | zero =>
    constructor
    · intro alive
      obtain ⟨h, member, rfl⟩ := List.mem_map.mp alive
      exact ⟨h, member, fun running => List.count_eq_zero.mp count (by rwa [← running]), rfl⟩
    · exact HeldOn.alive
  | succ n ih =>
    rw [Function.iterate_succ_apply]
    have held : (.running, k) ∈ ex.handles := List.count_pos_iff.mp (by omega)
    have other : ∀ {h : Owner × Key}, h.1 ≠ .running →
        (h ∈ (ex.release .running k).handles ↔ h ∈ ex.handles) :=
      fun apart => List.mem_erase_of_ne fun same => apart (congrArg Prod.fst same)
    by_cases spare : (ex.release .running k).Alive k
    · rw [dropHandle_spare held spare, ih _ (by rw [release, List.count_erase_self, count]; rfl)]
      constructor
      · rintro ⟨h, member, apart, same⟩
        exact ⟨h, (other apart).mp member, apart, same⟩
      · rintro ⟨h, member, apart, same⟩
        exact ⟨h, (other apart).mpr member, apart, same⟩
    · -- it dies with the last run
      constructor
      · intro alive
        have dead : ∀ (n : Nat) (s : Executor W), ((fun s => s.dropHandle prog .running k)^[n] s).Alive k →
            s.Alive k := by
          intro n
          induction n with
          | zero => exact fun _ alive => alive
          | succ n ih =>
            exact fun s alive => alive_of_code (dropHandle_run prog s .running k).code (ih _ alive)
        exact absurd (alive_of_code (dropHandle_last held spare).code (dead _ _ alive)) spare
      · rintro ⟨h, member, apart, same⟩
        exact absurd (List.mem_map.mpr ⟨h, (other apart).mpr member, same⟩) spare

/-- In any state of any run, a refused upgrade does the node no harm if and only if another
handle holds on to it. -/
theorem refused_upgrade_harmless_iff {cfg : EventDriverConfig} {mode : ExecutionMode} {world : W}
    {ex ex' : Executor W} (run : Path (withConfig cfg mode world) ex) (weaks : Nat) (o : Owner)
    (k : Key) (held : (o, k) ∈ ex.handles) (refused : ex.upgrade prog weaks o k = (false, ex')) :
    Unharmed prog ex ex' k ↔ (ex.release o k).HeldOn k := by
  have dropped : ex' = ex.dropHandle prog o k := by
    unfold upgrade at refused
    split at refused
    · cases refused
    · cases refused
      rfl
  constructor
  · intro unharmed
    by_cases spare : (ex.release o k).Alive k
    · rw [← dropHandle_spare held spare, ← dropped]
      exact (alive_returnRuns_iff ex' k).mp unharmed.outlives
    · have alive := unharmed.alive
      rw [dropped] at alive
      exact absurd (alive_of_code (dropHandle_last held spare).code alive) spare
  · intro other
    rw [dropHandle_spare held other.alive] at dropped
    subst dropped
    constructor
    case alive => exact other.alive
    case outlives => exact (alive_returnRuns_iff _ k).mpr other
    case marks => rfl
    case silent => rfl
    case stays =>
      intro later path present unmarked quiet
      have built : k < ex.inners.length := Path.occupants run (fun _ _ there => by cases there) _ _ present
      have from_release : Path (ex.release o k) later := path
      exact from_release.stays built unmarked quiet present

/-- Two handles, and one of them is refused. -/
theorem clone_unharmed :
    ∃ ex ex' : Executor Unit, bare.execOps relay [.build { index := 0 }, .handle (.clone 0 .user)] = .ok ex ∧
      ex.upgrade relay 0 .user 0 = (false, ex') ∧ (Unharmed relay ex ex' 0 ↔ (ex.release .user 0).HeldOn 0) ∧
      (ex.release .user 0).HeldOn 0 :=
  have built : bare.execOps relay [.build { index := 0 }, .handle (.clone 0 .user)] = .ok _ := rfl
  ⟨_, _, built, rfl, refused_upgrade_harmless_iff (execOps_path relay built) 0 .user 0
    (by decide) rfl, by decide⟩

/-- One handle and one `WeakNode`, as after `Router::route`: the refusal ends the life of the
node and the next cycle removes it. -/
theorem weak_harmed :
    ∃ ex ex' swept : Executor Unit, bare.execOps relay [.build { index := 0 }] = .ok ex ∧
      ex.upgrade relay 1 .user 0 = (false, ex') ∧ ex.Alive 0 ∧ ex.Present 0 ∧ ex.gc = [] ∧ ¬ ex'.Alive 0 ∧
      .dropped 0 ∈ ex'.trace ∧ ex'.marks = [0] ∧
      cycle relay 2 instantly ex' = .ok (.running, swept) ∧ ¬ swept.Present 0 ∧
      ¬ Unharmed relay ex ex' 0 :=
  have built : bare.execOps relay [.build { index := 0 }] = .ok _ := rfl
  ⟨_, _, _, built, rfl, by decide, by decide, rfl, by decide, by decide, by decide, rfl, by decide,
    fun unharmed => absurd unharmed.alive (by decide)⟩

end Executor
end Wavelet
