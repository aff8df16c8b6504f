import Wavelet.Cleanup.Sweep

/-!
# Handles and their holders

A handle is held by the program, by the closure or the data of a node, by a deferred subgraph
that waits, or by a spawned node itself. No holder goes away and leaves its handles behind: with the
last handle of a node its data is dropped, with its place in the graph its closure, and a drop that
sets off other drops runs them all to their end.
-/

namespace Wavelet
namespace Executor

open Steps

variable {W : Type} {prog : Program W}

/-- The holder is there. A spawned node holds itself as long as it is in the graph. -/
def Founds (ex : Executor W) (k : Key) (o : Owner) : Prop := ex.Holds o ∨ o = .graph k ∧ ex.Present k

/-- Every handle has a holder, or one of those in `out`, which are on their way out. -/
def Founded (out : Owner → Prop) (ex : Executor W) : Prop :=
  ∀ o k, (o, k) ∈ ex.handles → out o ∨ ex.Founds k o

/-- Neither a handle nor a holder is touched. -/
structure SameHolders (ex ex' : Executor W) : Prop where
  handles : ex'.handles = ex.handles
  spawns : ex'.deferredSpawns = ex.deferredSpawns
  present : ∀ k, ex'.Present k ↔ ex.Present k

theorem SameHolders.alive {ex ex' : Executor W} (same : SameHolders ex ex') (k : Key) :
    ex'.Alive k ↔ ex.Alive k := by
  rw [Alive, same.handles]
  rfl

theorem SameHolders.holds {ex ex' : Executor W} (same : SameHolders ex ex') (o : Owner) :
    ex'.Holds o ↔ ex.Holds o := by
  cases o with
  | closure k => exact same.present k
  | inner k => exact same.alive k
  | spawn t =>
    show t ∈ ex'.deferredSpawns ↔ _
    rw [same.spawns]
    rfl
  | _ => exact Iff.rfl

theorem founds_mono {ex ex' : Executor W} (holds : ∀ o, ex.Holds o → ex'.Holds o)
    (present : ∀ k, ex.Present k → ex'.Present k) {o : Owner} {k : Key} (founds : ex.Founds k o) :
    ex'.Founds k o := founds.imp (holds o) (And.imp id (present k))

namespace Founded

variable {out : Owner → Prop} {ex ex' : Executor W}

theorem mono (founded : ex.Founded out) (handles : ∀ h, h ∈ ex'.handles → h ∈ ex.handles)
    (holds : ∀ o, ex.Holds o → ex'.Holds o) (present : ∀ k, ex.Present k → ex'.Present k) :
    ex'.Founded out := by
  intro o k held
  exact (founded o k (handles _ held)).imp id (founds_mono holds present)

theorem same (founded : ex.Founded out) (same : SameHolders ex ex') : ex'.Founded out := by
  apply founded.mono
  · intro h held
    rwa [same.handles] at held
  · exact fun o => (same.holds o).mpr
  · exact fun k => (same.present k).mpr

theorem weaken {out' : Owner → Prop} (founded : ex.Founded out) (more : ∀ o, out o → out' o) :
    ex.Founded out' := fun o k held =>
  (founded o k held).imp (more o) id

/-- A holder on its way out that has nothing left is out. -/
theorem without {o : Owner} (founded : ex.Founded fun p => out p ∨ p = o)
    (empty : ∀ k, (o, k) ∉ ex.handles) : ex.Founded out := by
  intro p k held
  rcases founded p k held with (later | rfl) | founds
  · exact .inl later
  · exact absurd held (empty k)
  · exact .inr founds

end Founded

/-! ## Single operations -/

theorem holds_addHandle {ex : Executor W} {o p : Owner} {k : Key} (alive : ex.Alive k) :
    (ex.addHandle p k).Holds o ↔ ex.Holds o := by
  cases o with
  | inner i =>
    constructor
    · intro here
      rcases List.mem_cons.mp here with rfl | old
      · exact alive
      · exact old
    · exact List.mem_cons_of_mem _
  | _ => exact Iff.rfl

theorem holds_of_release {ex : Executor W} {o p : Owner} {k : Key}
    (holds : (ex.release p k).Holds o) : ex.Holds o := by
  cases o with
  | inner i =>
    obtain ⟨h, member, same⟩ := List.mem_map.mp holds
    exact List.mem_map.mpr ⟨h, List.mem_of_mem_erase member, same⟩
  | _ => exact holds

theorem holds_release {ex : Executor W} {o p : Owner} {k : Key} (other : o ≠ .inner k)
    (holds : ex.Holds o) : (ex.release p k).Holds o := by
  cases o with
  | inner i => exact alive_release (fun same => other (same ▸ rfl)) holds
  | _ => exact holds

theorem same_expire (ex : Executor W) (k : Key) : SameHolders ex (ex.expire k) := ⟨rfl, rfl, fun _ => Iff.rfl⟩

theorem same_notify (ex : Executor W) (t : Target) : SameHolders ex (ex.notify t) := by
  have pushes : SameHolders ex (ex.pushNotification t) := by
    unfold pushNotification
    dsimp only
    split <;> exact ⟨rfl, rfl, fun _ => Iff.rfl⟩
  exact ⟨pushes.handles, pushes.spawns, pushes.present⟩

theorem same_driverOp {ex ex' : Executor W} {op : DriverOp} (h : ex.driverOp op = some ex') :
    SameHolders ex ex' := by
  obtain ⟨driver, trace, rfl⟩ := driverOp_ok h
  exact ⟨rfl, rfl, fun _ => Iff.rfl⟩

theorem same_scheduleNode {ex ex' : Executor W} {k : Key} (h : ex.scheduleNode k = some ex') :
    SameHolders ex ex' := by
  simp only [scheduleNode] at h
  split at h
  · cases h
    exact ⟨rfl, rfl, fun _ => Iff.rfl⟩
  · cases h
    exact ⟨rfl, rfl, fun _ => Iff.rfl⟩
  · cases h

theorem same_offer {ex ex' : Executor W} {i : NodeIndex} {o : Offer}
    (h : ex.offer i = some (o, ex')) : SameHolders ex ex' where
  handles := handles_offer h
  spawns := by
    rcases offer_cases h with ⟨-, rfl, -⟩ | ⟨_, -, -, -, rfl⟩ | ⟨_, -, -, -, -, rfl⟩ |
      ⟨_, -, -, -, -, -, rfl⟩ <;> rfl
  present k := by
    rw [Present, inner_of_inners (inners_offer h), keyAt_of_same (offer_same h)]
    rfl

theorem same_fire {source : Source} {r : Ref} {ex ex' : Executor W}
    (h : fire source ex r = .ok ex') : SameHolders ex ex' := by
  obtain ⟨o, mid, offered, -, rfl⟩ := fire_ok h
  have same := same_offer offered
  exact ⟨same.handles, same.spawns, same.present⟩

theorem Founded.addHandle {out : Owner → Prop} {ex : Executor W} {o : Owner} {k : Key}
    (founded : ex.Founded out) (alive : ex.Alive k) (holds : out o ∨ ex.Founds k o) :
    (ex.addHandle o k).Founded out := by
  have kept : ∀ {p j}, ex.Founds j p → (ex.addHandle o k).Founds j p :=
    founds_mono (fun _ => (holds_addHandle alive).mpr) fun _ present => present
  intro p j held
  rcases List.mem_cons.mp held with same | old
  · cases same
    exact holds.imp id kept
  · exact (founded p j old).imp id kept

theorem Founded.cloneHandle {out : Owner → Prop} {ex : Executor W} {o : Owner} {k : Key}
    (founded : ex.Founded out) :
    (ex.cloneHandle o k).Founded out := by
  unfold Executor.cloneHandle
  split
  · rename_i allowed
    exact founded.addHandle allowed.1 (.inr (.inl allowed.2))
  · exact founded

theorem Founded.release {out : Owner → Prop} {ex : Executor W} {o : Owner} {k : Key}
    (founded : ex.Founded out) (left : (ex.release o k).Alive k) : (ex.release o k).Founded out := by
  refine founded.mono (fun h held => List.mem_of_mem_erase held) (fun p holds => ?_) fun _ present => present
  by_cases own : p = .inner k
  · rw [own]
    exact left
  · exact holds_release own holds

/-- The data of the node is on its way out with the last handle. -/
theorem Founded.expire {out : Owner → Prop} {ex : Executor W} {o : Owner} {k : Key}
    (founded : ex.Founded out) :
    ((ex.release o k).expire k).Founded fun p => out p ∨ p = .inner k := by
  have released : (ex.release o k).Founded fun p => out p ∨ p = .inner k := by
    intro p j held
    by_cases own : p = .inner k
    · exact .inl (.inr own)
    · rcases founded p j (List.mem_of_mem_erase held) with later | founds
      · exact .inl (.inl later)
      · exact .inr (founds.imp (holds_release own) id)
  exact released.same (same_expire _ k)

/-! ## Drops -/

/-- What an operation with handles keeps if the drops that it makes keep it. -/
theorem applyHandleOp_inv {p : Executor W → Prop} {dropHandle : Executor W → Owner → Key → Executor W}
    (same : ∀ {ex ex'}, SameHolders ex ex' → p ex → p ex') (clone : ∀ {ex} o k, p ex → p (ex.cloneHandle o k))
    (dropped : ∀ {ex} o k, p ex → p (dropHandle ex o k)) {ex : Executor W} (op : HandleOp W) (start : p ex) :
    p (applyHandleOp dropHandle ex op) := by
  cases op with
  | update f =>
    have aside : SameHolders ex { ex with world := f ex.world } := ⟨rfl, rfl, fun _ => Iff.rfl⟩
    exact same aside start
  | clone k o => exact clone o k start
  | drop k o => cases o <;> first | exact start | exact dropped _ k start
  | markForSweep t =>
    have aside : SameHolders ex (ex.markForSweep .requested (ex.ref t)) := ⟨rfl, rfl, fun _ => Iff.rfl⟩
    exact same aside start
  | notify t => exact same (same_notify ex t) start

/-- A property of the handles and their holders that every single operation keeps. -/
structure HandleInv (p : Executor W → Prop) : Prop where
  same : ∀ {ex ex'}, SameHolders ex ex' → p ex → p ex'
  clone : ∀ {ex} o k, p ex → p (ex.cloneHandle o k)
  release : ∀ {ex} o k, p ex → p (ex.release o k)

namespace HandleInv

variable {p : Executor W → Prop}

/-- A drop after its own handle is released. -/
theorem released (inv : HandleInv p) {depth : Nat}
    (nested : ∀ {ex} o k, p ex → p (dropHandleWith prog depth ex o k)) {ex : Executor W} {o : Owner}
    {k : Key} (held : (o, k) ∈ ex.handles) (start : p (ex.release o k)) :
    p (dropHandleWith prog (depth + 1) ex o k) := by
  rw [dropHandleWith, if_pos held]
  dsimp only
  split
  · exact start
  · have destructor := foldl_inv (p := p) (l := prog.onDrop ((ex.release o k).expire k) k)
      (fun s op _ => applyHandleOp_inv inv.same inv.clone nested op) (inv.same (same_expire _ k) start)
    exact foldl_inv (fun s j _ => nested (.inner k) j) destructor

theorem drop (inv : HandleInv p) {depth : Nat} {ex : Executor W} (o : Owner) (k : Key) (start : p ex) :
    p (dropHandleWith prog depth ex o k) := by
  induction depth generalizing ex o k with
  | zero => exact start
  | succ depth ih =>
    by_cases held : (o, k) ∈ ex.handles
    · exact inv.released (fun o k => ih o k) held (inv.release o k start)
    · rw [dropHandleWith, if_neg held]
      exact start

end HandleInv

/-- A holder that is gone gets no handle any more. -/
theorem gone_inv (o : Owner) (j : Key) (n : Nat) :
    HandleInv fun s : Executor W => ¬ s.Holds o ∧ s.handles.count (o, j) ≤ n where
  same same gone := by rwa [same.holds, same.handles]
  clone p k gone := by
    unfold cloneHandle
    split
    · rename_i allowed
      refine ⟨fun back => gone.1 ((holds_addHandle allowed.1).mp back), ?_⟩
      have other : (p, k) ≠ (o, j) := by
        rintro same
        cases same
        exact gone.1 allowed.2
      show ((p, k) :: _).count (o, j) ≤ n
      rw [List.count_cons_of_ne other]
      exact gone.2
    · exact gone
  release p k gone :=
    ⟨fun back => gone.1 (holds_of_release back), Nat.le_trans (List.erase_sublist.count_le _) gone.2⟩

theorem lives_pos {ex : Executor W} {o : Owner} {k : Key} (held : (o, k) ∈ ex.handles) :
    0 < ex.lives.card := by
  apply Finset.card_pos.mpr
  exact ⟨k, mem_lives.mpr (List.mem_map.mpr ⟨(o, k), held, rfl⟩)⟩

/-- One handle of a holder that is gone is given back. -/
theorem count_dropHandleWith {depth : Nat} {ex : Executor W} {o : Owner}
    (enough : ex.lives.card ≤ depth) (gone : ¬ ex.Holds o) (k j : Key) :
    (dropHandleWith prog depth ex o k).handles.count (o, j) ≤
      ex.handles.count (o, j) - if j = k then 1 else 0 := by
  by_cases held : (o, k) ∈ ex.handles
  · obtain ⟨depth, rfl⟩ : ∃ d, depth = d + 1 := ⟨depth - 1, by have := lives_pos held; omega⟩
    have inv := gone_inv (W := W) o j (ex.handles.count (o, j) - if j = k then 1 else 0)
    refine (inv.released (fun p l => inv.drop p l) held ⟨fun back => gone (holds_of_release back), ?_⟩).2
    show (ex.handles.erase (o, k)).count (o, j) ≤ _
    rw [List.count_erase]
    by_cases own : j = k
    · simp [own]
    · simp [own, Ne.symm own]
  · have none : ex.handles.count (o, k) = 0 := List.count_eq_zero.mpr held
    have idle : dropHandleWith prog depth ex o k = ex := by
      cases depth with
      | zero => rfl
      | succ depth => exact if_neg held
    rw [idle]
    split
    · rename_i own
      rw [own]
      omega
    · omega

theorem count_heldBy (ex : Executor W) (o : Owner) (j : Key) :
    (ex.heldBy o).count j = ex.handles.count (o, j) := by
  unfold heldBy
  induction ex.handles with
  | nil => rfl
  | cons h rest ih =>
    obtain ⟨p, k⟩ := h
    by_cases own : p = o
    · simp [own, List.count_cons, ih]
    · simp [own, ih]

/-- Dropping all that a holder has, one by one, leaves it nothing. -/
theorem emptied {o : Owner} {q : Executor W → Prop} {f : Executor W → Key → Executor W}
    (turn : ∀ s k, q s → q (f s k) ∧ ∀ j, (f s k).handles.count (o, j) ≤
      s.handles.count (o, j) - if j = k then 1 else 0) {ex : Executor W} (start : q ex) :
    q ((ex.heldBy o).foldl f ex) ∧ ∀ j, (o, j) ∉ ((ex.heldBy o).foldl f ex).handles := by
  -- no more is held than what is still to be dropped
  have left :=
    foldl_rest (p := fun rest (s : Executor W) => q s ∧ ∀ j, s.handles.count (o, j) ≤ rest.count j)
    (f := f) (l := ex.heldBy o)
    (fun s k rest before => by
      obtain ⟨fine, fewer⟩ := turn s k before.1
      refine ⟨fine, fun j => Nat.le_trans (fewer j) ?_⟩
      have bound := before.2 j
      rw [List.count_cons] at bound
      by_cases own : j = k
      · simp only [own, beq_self_eq_true, if_true] at bound ⊢
        omega
      · simp only [if_neg own, beq_iff_eq, Ne.symm own, if_false] at bound ⊢
        omega) (s := ex) ⟨start, fun j => (count_heldBy ex o j).ge⟩
  refine ⟨left.1, fun j => List.count_eq_zero.mp ?_⟩
  have none := left.2 j
  rw [List.count_nil] at none
  omega

/-- The life of node `k` is over, and what is left of it is being dropped. -/
structure Ending (out : Owner → Prop) (depth : Nat) (k : Key) (ex : Executor W) : Prop where
  few : ex.lives.card ≤ depth
  founded : ex.Founded fun p => out p ∨ p = .inner k
  dead : ¬ ex.Alive k

namespace Ending

variable {out : Owner → Prop} {depth : Nat} {k : Key} {ex ex' : Executor W}

theorem same (same : SameHolders ex ex') (ending : Ending out depth k ex) : Ending out depth k ex' where
  few := by
    rw [lives, same.handles]
    exact ending.few
  founded := ending.founded.same same
  dead back := ending.dead ((same.alive k).mp back)

theorem run (ending : Ending out depth k ex) (handles : HandleRun ex ex')
    (founded : ex'.Founded fun p => out p ∨ p = .inner k) :
    Ending out depth k ex' where
  few := lives_card_le handles ending.few
  founded := founded
  dead back := ending.dead (alive_of_code handles.code back)

end Ending

theorem Founded.dropHandleWith {depth : Nat} {out : Owner → Prop} {ex : Executor W}
    (enough : ex.lives.card ≤ depth) (founded : ex.Founded out) (o : Owner) (k : Key) :
    (Executor.dropHandleWith prog depth ex o k).Founded out := by
  induction depth generalizing out ex o k with
  | zero => exact founded
  | succ depth ih =>
    rw [Executor.dropHandleWith]
    split
    · rename_i held
      dsimp only
      split
      · rename_i left
        exact founded.release left
      · rename_i last
        have start : Ending out depth k ((ex.release o k).expire k) :=
          ⟨by have := lives_expire held last; omega, founded.expire, last⟩
        have dropped : ∀ {s : Executor W} (p : Owner) (l : Key), Ending out depth k s →
            Ending out depth k (Executor.dropHandleWith prog depth s p l) :=
          fun p l ending => ending.run (dropHandleWith_run prog ..) (ih ending.few ending.founded p l)
        have destructor :=
          foldl_inv (p := Ending out depth k) (l := prog.onDrop ((ex.release o k).expire k) k)
          (fun s op _ => applyHandleOp_inv Ending.same
            (fun p l ending => ending.run (cloneHandle_run ..) ending.founded.cloneHandle) dropped op) start
        -- the data is dropped last, and the node is dead, so that nothing new gets in
        have data := emptied (o := .inner k) (q := Ending out depth k)
          (f := fun s j => Executor.dropHandleWith prog depth s (.inner k) j)
          (fun s j ending => ⟨dropped _ j ending,
          count_dropHandleWith ending.few (show ¬ s.Holds (.inner k) from ending.dead) j⟩) destructor
        exact data.1.founded.without data.2
    · exact founded

theorem lives_card_handles (ex : Executor W) : ex.lives.card ≤ ex.handles.length := by
  have bound := List.toFinset_card_le (ex.handles.map (·.2))
  rwa [List.length_map] at bound

theorem gone_dropHandle {ex : Executor W} {o p : Owner} {k : Key} (gone : ¬ ex.Holds o) :
    ¬ (ex.dropHandle prog p k).Holds o :=
  ((gone_inv o 0 (ex.handles.count (o, 0))).drop p k ⟨gone, Nat.le_refl _⟩).1

theorem gone_dropOwner {ex : Executor W} {o p : Owner} (gone : ¬ ex.Holds o) :
    ¬ (ex.dropOwner prog p).Holds o :=
  foldl_inv (p := fun s : Executor W => ¬ s.Holds o) (fun _ _ _ gone => gone_dropHandle gone) gone

namespace Founded

variable {out : Owner → Prop} {ex ex' : Executor W}

theorem dropHandle (founded : ex.Founded out) (o : Owner) (k : Key) : (ex.dropHandle prog o k).Founded out :=
  founded.dropHandleWith (lives_card_handles ex) o k

theorem handleOp (founded : ex.Founded out) (op : HandleOp W) : (ex.handleOp prog op).Founded out :=
  applyHandleOp_inv (fun same founded => founded.same same) (fun _ _ founded => founded.cloneHandle)
    (fun o k founded => founded.dropHandle o k) op founded

/-- A holder that is gone goes with all it has. -/
theorem dropOwner {o : Owner} (founded : ex.Founded fun p => out p ∨ p = o) (gone : ¬ ex.Holds o) :
    (ex.dropOwner prog o).Founded out := by
  have done := emptied (o := o) (q := fun s : Executor W => (s.Founded fun p => out p ∨ p = o) ∧ ¬ s.Holds o)
    (f := fun s k => s.dropHandle prog o k)
    (fun s k before => ⟨⟨before.1.dropHandle o k, gone_dropHandle before.2⟩,
    count_dropHandleWith (lives_card_handles s) before.2 k⟩)
    ⟨founded, gone⟩
  exact done.1.1.without done.2

end Founded

end Executor
end Wavelet
