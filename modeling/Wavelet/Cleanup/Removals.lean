import Wavelet.Cycle.Order
import Wavelet.Runtime.Ownership

/-!
# What the sweep removes

A mark is a bare index, and the sweep removes whatever node it finds there. As long as
every mark is made on its own node or on an empty slot, and no node is built at an index
that still waits in the removal queue, a removed node had a reason of its own. Otherwise
the handle of a node that is gone removes the next node at its index.
-/

namespace Wavelet

/-- A mark names the node in its slot, if there is one, and a new node finds no mark. -/
def Event.MarksOwn : Event → Prop
  | .marked _ r occupant => occupant = none ∨ occupant = r.node
  | .built _ _ _ unmarked _ => unmarked = true
  | _ => True

instance : DecidablePred Event.MarksOwn
  | .marked _ r occupant => inferInstanceAs (Decidable (occupant = none ∨ occupant = r.node))
  | .built _ _ _ unmarked _ => inferInstanceAs (Decidable (unmarked = true))
  | .began | .registered .. | .notified .. | .fired .. | .spread .. | .manual .. | .ran _
  | .terminated | .poisoned _ | .dropped _ | .removed _ => .isTrue trivial

/-- The reasons to remove node `k`: its run returned `Sweep`, panicked, found no handle or
found it poisoned; it was marked while it was in the graph; its last handle was dropped. -/
def Event.Justifies (k : Key) : Event → Prop
  | .ran run => run.node = k ∧ run.Swept
  | .marked .requested _ occupant => occupant = some k
  | .dropped j => j = k
  | _ => False

instance (k : Key) : DecidablePred (Event.Justifies k)
  | .ran run => inferInstanceAs (Decidable (run.node = k ∧ run.Swept))
  | .marked .requested _ occupant => inferInstanceAs (Decidable (occupant = some k))
  | .dropped j => inferInstanceAs (Decidable (j = k))
  | .began | .built .. | .registered .. | .notified .. | .fired .. | .spread .. | .manual
      .. | .terminated | .poisoned _
  | .marked .swept .. | .marked .lastHandle .. | .removed _ => .isFalse id

def Justified (k : Key) (past : List Event) : Prop := ∃ event ∈ past, event.Justifies k

instance (k : Key) (past : List Event) : Decidable (Justified k past) :=
  inferInstanceAs (Decidable (∃ event ∈ past, _))

theorem Justified.later {k : Key} {past past' : List Event} (earlier : past <:+ past')
    (h : Justified k past) :
    Justified k past' := by
  obtain ⟨event, member, reason⟩ := h
  exact ⟨event, earlier.mem member, reason⟩

/-- Every removal of the trace had a reason by then. -/
def RemovalsJustified (trace : List Event) : Prop := ∀ k past, .removed k :: past <:+ trace → Justified k past

theorem RemovalsJustified.cons {trace : List Event} {event : Event} (before : RemovalsJustified trace)
    (reason : ∀ k, event = .removed k → Justified k trace) : RemovalsJustified (event :: trace) := by
  intro k past suffix
  rcases List.suffix_cons_iff.mp suffix with same | old
  · obtain ⟨rfl, rfl⟩ := List.cons.inj same
    exact reason k rfl
  · exact before k past old

namespace Executor

variable {W : Type}

/-- Every mark is its node's own, and that node has a reason to go. -/
structure Collecting (ex : Executor W) : Prop where
  own : ∀ r ∈ ex.gc, ex.Own r
  reason : ∀ r ∈ ex.gc, ∀ k, ex.keyAt r.index = some k → Justified k ex.trace
  past : RemovalsJustified ex.trace

/-- A step that leaves the slots and the marks alone. -/
theorem Collecting.steady {ex ex' : Executor W} (collecting : ex.Collecting)
    (slots : ∀ i, ex'.keyAt i = ex.keyAt i) (marks : ∀ r ∈ ex'.gc, r ∈ ex.gc)
    (trace : ex'.trace = ex.trace ∨ ∃ event, ex'.trace = event :: ex.trace ∧
      ∀ k, event ≠ .removed k) : ex'.Collecting := by
  have earlier : ex.trace <:+ ex'.trace := by
    rcases trace with same | ⟨event, more, -⟩
    · exact same ▸ List.suffix_refl _
    · rw [more]
      exact List.suffix_cons ..
  constructor
  case own =>
    intro r member m here
    rw [slots] at here
    exact collecting.own r (marks r member) m here
  case reason =>
    intro r member k here
    rw [slots] at here
    exact (collecting.reason r (marks r member) k here).later earlier
  case past =>
    rcases trace with same | ⟨event, more, other⟩
    · rw [same]
      exact collecting.past
    · rw [more]
      exact collecting.past.cons fun k removal => absurd removal (other k)

/-- A new mark on a node that has a reason to go, or on an empty slot. -/
theorem Collecting.mark {ex : Executor W} {cause : Cause} {r : Ref} (collecting : ex.Collecting)
    (own : ex.keyAt r.index = none ∨ ex.keyAt r.index = r.node)
    (reason : ∀ k, ex.keyAt r.index = some k → Justified k (.marked cause r (some k) :: ex.trace)) :
    (ex.markForSweep cause r).Collecting := by
  have earlier : ex.trace <:+ (ex.markForSweep cause r).trace := List.suffix_cons ..
  constructor
  case own =>
    intro s member
    rcases List.mem_append.mp member with old | new
    · exact collecting.own s old
    · rw [List.mem_singleton.mp new]
      exact own_of_occupant own
  case reason =>
    intro s member k here
    rcases List.mem_append.mp member with old | new
    · exact (collecting.reason s old k here).later earlier
    · rw [List.mem_singleton.mp new] at here
      replace here : ex.keyAt r.index = some k := here
      have found := reason k here
      rw [← here] at found
      exact found
  case past =>
    exact collecting.past.cons fun k removal => by cases removal

/-- One step keeps the removal queue clean. -/
theorem Micro.collecting {ex ex' : Executor W} (step : Micro ex ex') (marksOwn : ex'.All Event.MarksOwn)
    (collecting : ex.Collecting) : ex'.Collecting := by
  cases step with
  | code step =>
    cases step with
    | handle step =>
      cases step with
      | expire o k =>
        -- the handle's own line in the trace is the reason for its mark
        have dropped : ((ex.release o k).log (.dropped k)).Collecting :=
          collecting.steady (fun _ => rfl) (fun _ member => member) (.inr ⟨_, rfl, by simp⟩)
        have fits := marksOwn _ List.mem_cons_self
        apply dropped.mark fits
        intro j here
        rcases fits with vacant | same
        · replace vacant : ((ex.release o k).log (.dropped k)).keyAt (ex.inner k).index = none := vacant
          rw [show (⟨((ex.release o k).inner k).index, some k⟩ : Ref).index =
            (ex.inner k).index from rfl, vacant] at here
          cases here
        · rw [here] at same
          cases same
          exact ⟨.dropped k, List.mem_cons_of_mem _ List.mem_cons_self, rfl⟩
      | request t =>
        exact collecting.mark (marksOwn _ List.mem_cons_self) fun k here => ⟨_, List.mem_cons_self, rfl⟩
      | register t driver =>
        exact collecting.steady (fun _ => rfl) (fun _ member => member) (.inr ⟨_, rfl, by simp⟩)
      | noted r kept =>
        exact collecting.steady (fun _ => rfl) (fun _ member => member) (.inr ⟨_, rfl, by simp⟩)
      | _ => exact collecting.steady (fun _ => rfl) (fun _ member => member) (.inl rfl)
    | refused k => exact collecting.steady (fun _ => rfl) (fun _ member => member) (.inr ⟨_, rfl, by simp⟩)
    | manual k s => exact collecting.steady (fun _ => rfl) (fun _ member => member) (.inr ⟨_, rfl, by simp⟩)
    | _ => exact collecting.steady (fun _ => rfl) (fun _ member => member) (.inl rfl)
  | begin => exact collecting.steady (fun _ => rfl) (fun _ member => member) (.inr ⟨_, rfl, by simp⟩)
  | fire source driver r known sub takes fired =>
    obtain ⟨o, mid, offered, -, rfl⟩ := fire_ok fired
    have slots := keyAt_of_same (offer_same offered)
    have gc := gc_offer offered
    exact collecting.steady slots (fun s member => by rw [← gc]; exact member)
      (.inr ⟨_, congrArg _ (trace_offer offered), by simp⟩)
  | pop o s popped => exact collecting.steady (fun _ => rfl) (fun _ member => member) (.inl rfl)
  | ran run there => exact collecting.steady (fun _ => rfl) (fun _ member => member) (.inr ⟨_, rfl, by simp⟩)
  | terminated => exact collecting.steady (fun _ => rfl) (fun _ member => member) (.inr ⟨_, rfl, by simp⟩)
  | mark run there swept ran =>
    apply collecting.mark (.inr there)
    intro k here
    rw [there] at here
    cases here
    exact ⟨.ran run, List.mem_cons_of_mem _ ran, rfl, swept⟩
  | poison i poisoned =>
    obtain ⟨ctx, there, rfl⟩ := markPoisoned_ok poisoned
    exact collecting.steady (keyAt_of_same (Graph.setWeight_same there _ rfl rfl)) (fun _ member => member)
      (.inr ⟨_, rfl, by simp⟩)
  | spread child spreads =>
    obtain ⟨o, mid, offered, rfl⟩ := spread_ok spreads
    have slots : ∀ i, mid.keyAt i = ex.keyAt i := keyAt_of_same (offer_same offered)
    have gc : mid.gc = ex.gc := gc_offer offered
    exact collecting.steady slots (fun s member => by rw [← gc]; exact member)
      (.inr ⟨_, congrArg _ (trace_offer offered), by simp⟩)
  | discard r rest front vacant =>
    exact collecting.steady (fun _ => rfl)
      (fun s member => by rw [front]; exact List.mem_cons_of_mem _ member) (.inl rfl)
  | remove r rest k front there rests =>
    have mine : r ∈ ex.gc := by rw [front]; exact List.mem_cons_self
    have others : ∀ s ∈ rest, s ∈ ex.gc := fun s member => by rw [front]; exact List.mem_cons_of_mem _ member
    have left :
        ∀ (s : Ref) (m : Key),
        (log { ex with gc := rest, graph := ex.graph.removeNode r.index } (.removed k)).keyAt s.index = some m →
        ex.keyAt s.index = some m := fun s m here => (keyAt_of_removeNode here).2
    refine ⟨fun s member m here => collecting.own s (others s member) m (left s m here),
      fun s member m here => ?_, ?_⟩
    · exact (collecting.reason s (others s member) m (left s m here)).later (List.suffix_cons ..)
    · apply collecting.past.cons
      intro j removal
      cases removal
      exact collecting.reason r mine k there
  | build args depth graph vacant deep edges =>
    have unmarked : decide (args.index ∉ ex.marks) = true := marksOwn _ List.mem_cons_self
    have slots := keyAt_insertNode edges
    have apart : ∀ r ∈ ex.gc, r.index ≠ args.index := fun r member same =>
      of_decide_eq_true unmarked (List.mem_map.mpr ⟨r, member, same⟩)
    constructor
    case own =>
      intro r member m here
      rw [slots, if_neg (apart r member)] at here
      exact collecting.own r member m here
    case reason =>
      intro r member m here
      rw [slots, if_neg (apart r member)] at here
      exact (collecting.reason r member m here).later (List.suffix_cons ..)
    case past =>
      exact collecting.past.cons fun k removal => by cases removal

/-- While every mark is made on its own node, a node that is not in the graph any more was
removed, and whatever was removed had a reason of its own. -/
theorem removals_justified {ex : Executor W} (reached : Reachable (fun _ => True) ex)
    (marksOwn : ex.All Event.MarksOwn) :
    ex.Accounted ∧ RemovalsJustified ex.trace := by
  obtain ⟨cfg, mode, world, path⟩ := reached.path
  have start : (withConfig cfg mode world : Executor W).Collecting :=
    ⟨fun _ member => (by cases member), fun _ member => (by cases member), fun k past suffix => by
      have := List.suffix_nil.mp suffix
      cases this⟩
  have collecting := Steps.run_inv_of (p := Collecting) (fun _ _ step => All.earlier step)
    (fun _ _ step => step.collecting) path marksOwn start
  exact ⟨reached.accounted, collecting.past⟩

/-- Node 0 sweeps itself. -/
def quitter : Program Unit where
  cycleFn _ _ k := ([], .ret (if k = 0 then .sweep else .unchanged))
  onDrop _ _ := []
  spawnFn _ _ := []

def quitterOps : List (ExecOp Unit) := [.build { index := 0 }, .driver (.yieldNow (.node 0))]

/-- One node sweeps itself, the other loses its handle. -/
theorem quitter_removals_justified :
    ∃ ex : Executor Unit, bare.play quitter 3 [(quitterOps ++ [.build { index := 1 }], instantly),
        ([.handle (.drop 1 .user)], instantly)] = .ok ([.running, .running], ex) ∧
      ex.graph.nodeCount = 0 ∧ ex.Accounted ∧ RemovalsJustified ex.trace :=
  have played : bare.play quitter 3 [(quitterOps ++ [.build { index := 1 }], instantly),
      ([.handle (.drop 1 .user)], instantly)] = .ok ([.running, .running], _) := rfl
  ⟨_, played, rfl, removals_justified ((Reachable.initial ..).play played (fun _ _ => trivial)) (by decide)⟩

/-- Node 0 leaves the graph and node 1 is built at its index. When the last handle of node
0 goes, the next cycle removes node 1, which did nothing and still has its handle. -/
theorem stale_handle_removes_other :
    ∃ ex : Executor Unit, Reachable (· = .running) ex ∧ ex.All Event.ParentsPresent ∧
      ex.All Event.ManualPresent ∧
      ex.Alive 1 ∧ .removed 1 ∈ ex.trace ∧ ¬ RemovalsJustified ex.trace :=
  have played : bare.play quitter 3 [(quitterOps, instantly),
      ([.build { index := 0 }, .handle (.drop 0 .user)], instantly)] = .ok ([.running, .running], _) := rfl
  ⟨_, (Reachable.initial ..).play played (by decide), by decide, by decide, by decide, by decide,
    fun all => absurd (all 1 _ (List.suffix_refl _)) (by decide)⟩

end Executor
end Wavelet
