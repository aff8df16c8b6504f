import Mathlib.Logic.Relation

/-!
# Exclusive handles

`Node`, `ExclusiveNode` and `WeakNode` of `node.rs` are handles to one `Rc`, and the closure
that the graph keeps for a node made by `build` or `build_with_channel` holds one `WeakNode`
of its own. `Node::upgrade` takes the counts 1 and 1 for "this handle and the closure". Once
the node has left the graph the one weak handle may be another one, and then the
`ExclusiveNode` is not exclusive.
-/

namespace Wavelet

/-- The handles to the data of one node: those of the program, the `Node` that the closure
has while it runs, and the `WeakNode` that it has as long as the graph keeps it. -/
structure Shared where
  nodes : Nat
  exclusives : Nat
  weaks : Nat
  running : Bool
  inGraph : Bool
  deriving DecidableEq, Repr

/-- The operations on handles, a run of the node, and its removal from the graph. -/
inductive SharedOp where
  | clone
  | downgrade
  | upgrade
  | weakUpgrade
  | exclusiveDowngrade
  | dropNode
  | dropExclusive
  | dropWeak
  | enter
  | leave
  | remove
  deriving DecidableEq, Repr

namespace Shared

/-- The one handle that the builder returns, and the closure's. -/
def built : Shared := ⟨1, 0, 0, false, true⟩

/-- `Rc::strong_count`. -/
def strongCount (s : Shared) : Nat := s.nodes + s.exclusives + s.running.toNat

/-- `Rc::weak_count`. -/
def weakCount (s : Shared) : Nat := s.weaks + s.inGraph.toNat

/-! ## The operations -/

/-- `Node::upgrade`; a handle that cannot be upgraded is dropped. -/
def upgrade (s : Shared) : Shared :=
  if s.strongCount = 1 ∧ s.weakCount = 1 then { s with nodes := s.nodes - 1, exclusives := s.exclusives + 1 }
  else { s with nodes := s.nodes - 1 }

/-- `WeakNode::upgrade` by the program; without a strong handle it gives none. -/
def weakUpgrade (s : Shared) : Shared := if 0 < s.strongCount then { s with nodes := s.nodes + 1 } else s

/-- The closure's own `WeakNode::upgrade`. -/
def enter (s : Shared) : Shared := { s with running := decide (0 < s.strongCount) }

/-- One operation, `none` when there is no handle to call it on. A node that is running is
not removed. -/
def apply (s : Shared) : SharedOp → Option Shared
  | .clone => if 0 < s.nodes then some { s with nodes := s.nodes + 1 } else none
  | .downgrade => if 0 < s.nodes then some { s with weaks := s.weaks + 1 } else none
  | .upgrade => if 0 < s.nodes then some s.upgrade else none
  | .weakUpgrade => if 0 < s.weaks then some s.weakUpgrade else none
  | .exclusiveDowngrade =>
    if 0 < s.exclusives then some { s with nodes := s.nodes + 1, exclusives := s.exclusives - 1 } else none
  | .dropNode => if 0 < s.nodes then some { s with nodes := s.nodes - 1 } else none
  | .dropExclusive => if 0 < s.exclusives then some { s with exclusives := s.exclusives - 1 } else none
  | .dropWeak => if 0 < s.weaks then some { s with weaks := s.weaks - 1 } else none
  | .enter => if s.inGraph ∧ ¬ s.running then some s.enter else none
  | .leave => if s.running then some { s with running := false } else none
  | .remove => if s.inGraph ∧ ¬ s.running then some { s with inGraph := false } else none

def play (s : Shared) (ops : List SharedOp) : Option Shared := ops.foldlM apply s

/-! ## Exclusivity -/

/-- An operation after which there is still an `ExclusiveNode`. -/
def Keeps (s s' : Shared) : Prop := (∃ op, s.apply op = some s') ∧ 0 < s'.exclusives

/-- While there is an `ExclusiveNode`, the program has no `Node` and no operations give it
one. -/
def Exclusive (s : Shared) : Prop := 0 < s.exclusives → ∀ s', Relation.ReflTransGen Keeps s s' → s'.nodes = 0

/-- The node is out of the graph, and a `Node` and a `WeakNode` of the program are left. -/
def Orphaned (s : Shared) : Prop := s = ⟨1, 0, 1, false, false⟩

instance (s : Shared) : Decidable s.Orphaned := inferInstanceAs (Decidable (_ = _))

/-- The `ExclusiveNode` is the only handle of the program. -/
def Alone (s : Shared) : Prop := 0 < s.exclusives → s.nodes = 0 ∧ s.exclusives = 1 ∧ s.weaks = 0

/-- The counts of an upgrade that succeeds leave room for nothing but the closure's handle,
or the node is orphaned. -/
theorem Alone.upgrade {s : Shared} (alone : s.Alone) (held : 0 < s.nodes) (fine : ¬ s.Orphaned) :
    s.upgrade.Alone := by
  by_cases counts : s.strongCount = 1 ∧ s.weakCount = 1
  · rw [Shared.upgrade, if_pos counts]
    obtain ⟨nodes, exclusives, weaks, running, inGraph⟩ := s
    simp only [strongCount, weakCount] at counts held
    intro _
    dsimp only
    cases inGraph with
    | true =>
      simp only [Bool.toNat_true] at counts
      omega
    | false =>
      simp only [Bool.toNat_false] at counts
      cases running with
      | true =>
        simp only [Bool.toNat_true] at counts
        omega
      | false =>
        simp only [Bool.toNat_false] at counts
        refine absurd ?_ fine
        simp only [Orphaned, mk.injEq, and_true]
        omega
  · rw [Shared.upgrade, if_neg counts]
    intro there
    have := (alone there).1
    omega

theorem Alone.weakUpgrade {s : Shared} (alone : s.Alone) (held : 0 < s.weaks) : s.weakUpgrade.Alone := by
  unfold Shared.weakUpgrade
  split
  · intro there
    have := (alone there).2.2
    omega
  · exact alone

/-- One operation keeps the `ExclusiveNode` alone, unless it upgrades an orphaned node. -/
theorem Alone.apply {s s' : Shared} {op : SharedOp} (alone : s.Alone) (fine : op = .upgrade → ¬ s.Orphaned)
    (h : s.apply op = some s') : s'.Alone := by
  cases op with
  | upgrade =>
    simp only [Shared.apply] at h
    split at h
    · rename_i held
      cases h
      exact alone.upgrade held (fine rfl)
    · cases h
  | weakUpgrade =>
    simp only [Shared.apply] at h
    split at h
    · rename_i held
      cases h
      exact alone.weakUpgrade held
    · cases h
  | _ =>
    simp only [Shared.apply, enter] at h
    split at h
    · cases h
      intro there
      unfold Alone at alone
      dsimp only at there ⊢
      omega
    · cases h

/-- As long as the `ExclusiveNode` is kept, no `Node` can be made next to it. -/
theorem Alone.exclusive {s : Shared} (alone : s.Alone) : s.Exclusive := by
  intro there s' run
  have kept : s'.Alone ∧ 0 < s'.exclusives := by
    induction run with
    | refl => exact ⟨alone, there⟩
    | tail _ step ih =>
      obtain ⟨⟨op, applied⟩, more⟩ := step
      refine ⟨ih.1.apply ?_ applied, more⟩
      rintro - rfl
      cases ih.2
  exact (kept.1 kept.2).1

/-- A weak handle of the program undoes exclusivity. -/
theorem not_exclusive_of_weak {s : Shared} (there : 0 < s.exclusives) (weak : 0 < s.weaks) :
    ¬ s.Exclusive := by
  intro exclusive
  have held : 0 < s.strongCount := by
    unfold strongCount
    omega
  have step : Keeps s { s with nodes := s.nodes + 1 } := by
    refine ⟨⟨.weakUpgrade, ?_⟩, there⟩
    simp only [Shared.apply, weakUpgrade, if_pos weak, if_pos held]
  have := exclusive there _ (.single step)
  dsimp only at this
  omega

/-! ## Runs -/

theorem play_append (s : Shared) (before after : List SharedOp) :
    s.play (before ++ after) = (s.play before).bind fun mid => mid.play after := by
  simp only [play, List.foldlM_append]
  rfl

/-- The operations `ops`, as far as they have handles to be called on, never upgrade an
orphaned node. -/
def Careful (s : Shared) (ops : List SharedOp) : Prop :=
  ∀ before after mid, ops = before ++ .upgrade :: after → s.play before = some mid → ¬ mid.Orphaned

theorem Alone.play {ops : List SharedOp} {s s' : Shared} (alone : s.Alone) (careful : s.Careful ops)
    (h : s.play ops = some s') : s'.Alone := by
  induction ops generalizing s with
  | nil =>
    cases h
    exact alone
  | cons op rest ih =>
    simp only [Shared.play, List.foldlM_cons] at h
    obtain ⟨mid, applied, later⟩ := Option.bind_eq_some_iff.mp h
    refine ih (alone.apply ?_ applied) ?_ later
    · rintro rfl
      exact careful [] rest s rfl rfl
    · intro before after last split played
      refine careful (op :: before) after last (by rw [split]; rfl) ?_
      simp only [Shared.play, List.foldlM_cons, applied]
      exact played

/-- `ExclusiveNode` is exclusive at every moment of a run if and only if `Node::upgrade` is
never called on the last strong handle of a node that is out of the graph while exactly one
`WeakNode` is left. -/
theorem exclusive_iff_careful (ops : List SharedOp) :
    (∀ before after mid, ops = before ++ after → built.play before = some mid → mid.Exclusive) ↔
      built.Careful ops := by
  constructor
  · intro exclusive before after mid split played
    rintro rfl
    have upgraded : built.play (before ++ [.upgrade]) = some ⟨0, 1, 1, false, false⟩ := by
      rw [play_append, played]
      rfl
    refine not_exclusive_of_weak (by decide) (by decide) (exclusive _ after _ ?_ upgraded)
    rw [split, List.append_assoc]
    rfl
  · intro careful before after mid split played
    have alone : built.Alone := by
      intro no
      cases no
    refine (alone.play ?_ played).exclusive
    rintro first last inner rfl runs
    refine careful first (last ++ after) inner ?_ runs
    rw [split, List.append_assoc]
    rfl

/-- A node is downgraded once, swept and then upgraded. -/
theorem swept_not_exclusive :
    ∃ s, built.play [.downgrade, .remove, .upgrade] = some s ∧ 0 < s.exclusives ∧ ¬ s.Exclusive ∧
      ∃ s', s.apply .weakUpgrade = some s' ∧ 0 < s'.exclusives ∧ 0 < s'.nodes :=
  ⟨⟨0, 1, 1, false, false⟩, rfl, by decide, not_exclusive_of_weak (by decide) (by decide),
    ⟨1, 1, 1, false, false⟩, rfl, by decide, by decide⟩

end Shared
end Wavelet
