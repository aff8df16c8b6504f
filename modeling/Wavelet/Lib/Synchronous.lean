import Mathlib.Logic.Function.Basic

/-!
# Synchronous circuits

Nodes that react in ticks. In each tick every node is visited once, in the order in which the
nodes were made, and reacts if it is woken or a parent that triggers it has broadcast. As a
node is made after its parents, what it reads is what they show at the end of the tick: a tick
solves the equations of all its nodes at once, and only one snapshot does.
-/

namespace Wavelet
namespace Synchronous

variable {ι τ : Type} {σ : ι → Type}

/-- The nodes and what they do. A source is set from outside. The others make what they show
next of the time, of what they show and of their parents; a reaction may fail. -/
structure Circuit (ι : Type) (σ : ι → Type) (τ : Type) where
  source : ι → Bool
  /-- The parents of a node, and whether it is triggered by them. -/
  parents : ι → List (ι × Bool)
  react : ∀ i, τ → σ i → (∀ j, σ j) → (ι → Bool) → Option (σ i × Bool)
  looks : ∀ i t own value value' spoke spoke', (∀ p ∈ parents i, value p.1 = value' p.1 ∧
      spoke p.1 = spoke' p.1) →
    react i t own value spoke = react i t own value' spoke'

/-- What a tick is given. -/
structure Stimulus (ι : Type) (σ : ι → Type) (τ : Type) where
  time : τ
  woken : ι → Bool
  input : ∀ i, σ i × Bool

/-- What the nodes show, and which of them broadcast. -/
structure Snapshot (ι : Type) (σ : ι → Type) where
  value : ∀ i, σ i
  spoke : ι → Bool

inductive Act (ι : Type) (σ : ι → Type) (τ : Type)
  | make (i : ι) (start : σ i)
  | tick (t : Stimulus ι σ τ)

/-- The nodes made so far, what they show, and who has broadcast in each tick. -/
structure Reactor (ι : Type) (σ : ι → Type) where
  order : List ι
  value : ∀ i, σ i
  spoken : List (ι → Bool)

namespace Circuit

variable (C : Circuit ι σ τ)

/-! ## One tick -/

def due (t : Stimulus ι σ τ) (spoke : ι → Bool) (i : ι) : Bool :=
  t.woken i || (C.parents i).any fun p => p.2 && spoke p.1

/-- Before the first visit the sources have their input, and no other node has broadcast. -/
def enter (t : Stimulus ι σ τ) (before : ∀ i, σ i) : Snapshot ι σ where
  value i := if C.source i then (t.input i).1 else before i
  spoke i := C.source i && (t.input i).2

/-- Each node comes after its parents, and is no source. -/
inductive Ordered : List ι → Prop
  | nil : Ordered []
  | snoc {order i} : Ordered order → i ∉ order → C.source i = false →
      (∀ p ∈ C.parents i, C.source p.1 = true ∨ p.1 ∈ order) →
      Ordered (order ++ [i])

/-- The equation of a node in a tick: it has reacted to the snapshot that it is in, or it was left alone. -/
structure Settled (t : Stimulus ι σ τ) (snapshot : Snapshot ι σ) (i : ι) (before : σ i) : Prop where
  reacts : C.due t snapshot.spoke i = true →
    C.react i t.time before snapshot.value snapshot.spoke = some (snapshot.value i, snapshot.spoke i)
  rests : C.due t snapshot.spoke i = false → snapshot.value i = before ∧ snapshot.spoke i = false

structure Solves (t : Stimulus ι σ τ) (order : List ι) (before : ∀ i, σ i)
    (snapshot : Snapshot ι σ) : Prop where
  given : ∀ i, C.source i = true → snapshot.value i = (t.input i).1 ∧ snapshot.spoke i = (t.input i).2
  settled : ∀ i ∈ order, C.Settled t snapshot i (before i)

variable [DecidableEq ι]

def visit (t : Stimulus ι σ τ) (snapshot : Snapshot ι σ) (i : ι) : Option (Snapshot ι σ) :=
  if C.due t snapshot.spoke i then
    (C.react i t.time (snapshot.value i) snapshot.value snapshot.spoke).map fun made =>
      ⟨Function.update snapshot.value i made.1, Function.update snapshot.spoke i made.2⟩
  else some snapshot

def tick (t : Stimulus ι σ τ) (order : List ι) (before : ∀ i, σ i) : Option (Snapshot ι σ) :=
  order.foldlM (C.visit t) (C.enter t before)

/-! ## Runs -/

def handle (m : Reactor ι σ) : Act ι σ τ → Option (Reactor ι σ)
  | .make i start => some { m with order := m.order ++ [i], value := Function.update m.value i start }
  | .tick t =>
    (C.tick t m.order m.value).map fun snapshot => ⟨m.order, snapshot.value, m.spoken ++ [snapshot.spoke]⟩

/-- All the events, one after the other. -/
def replay [∀ i, Inhabited (σ i)] (events : List (Act ι σ τ)) : Option (Reactor ι σ) :=
  events.foldlM C.handle ⟨[], fun _ => default, []⟩

variable {C} {t : Stimulus ι σ τ} {order : List ι} {before : ∀ i, σ i} {snapshot : Snapshot ι σ}

omit [DecidableEq ι] in
/-- Whether a node is due depends on its parents alone. -/
theorem due_congr {spoke spoke' : ι → Bool} {i : ι} (same : ∀ p ∈ C.parents i, spoke p.1 = spoke' p.1) :
    C.due t spoke i = C.due t spoke' i := by
  have each : ((C.parents i).any fun p => p.2 && spoke p.1) = true ↔
      ((C.parents i).any fun p => p.2 && spoke' p.1) = true := by
    simp only [List.any_eq_true]
    refine exists_congr fun p => and_congr_right fun member => ?_
    rw [same p member]
  rw [due, due, Bool.eq_iff_iff.mpr each]

/-- The visits of a tick lead to the snapshot that solves its equations: after each of them the nodes
visited so far are as in that snapshot, and the others as before. -/
theorem tick_of_solves (ordered : C.Ordered order) (solves : C.Solves t order before snapshot) :
    ∃ f, C.tick t order before = some f ∧
      (∀ i ∈ order, f.value i = snapshot.value i ∧ f.spoke i = snapshot.spoke i) ∧
      ∀ i ∉ order, f.value i = (C.enter t before).value i ∧ f.spoke i = (C.enter t before).spoke i := by
  induction ordered with
  | nil => exact ⟨_, rfl, fun _ none => absurd none List.not_mem_nil, fun _ _ => ⟨rfl, rfl⟩⟩
  | @snoc order i ordered fresh inner known ih =>
    obtain ⟨given, settled⟩ := solves
    obtain ⟨f, ticked, done, rest⟩ := ih ⟨given, fun j member => settled j (List.mem_append_left _ member)⟩
    have last := settled i (List.mem_append_right _ (List.mem_singleton_self i))
    have parents : ∀ p ∈ C.parents i, f.value p.1 = snapshot.value p.1 ∧
        f.spoke p.1 = snapshot.spoke p.1 := by
      intro p member
      by_cases seen : p.1 ∈ order
      · exact done p.1 seen
      · have source := (known p member).resolve_right seen
        obtain ⟨value, spoke⟩ := rest p.1 seen
        obtain ⟨value', spoke'⟩ := given p.1 source
        simp [value, spoke, value', spoke', enter, source]
    have due := due_congr (t := t) fun p member => (parents p member).2
    obtain ⟨own, silent⟩ := rest i fresh
    simp only [enter, inner, Bool.false_and, Bool.false_eq_true, if_false] at own silent
    have others : ∀ {j}, j ∈ order → j ≠ i := by
      rintro j member rfl
      exact fresh member
    have visits : C.tick t (order ++ [i]) before = C.visit t f i := by
      rw [tick, List.foldlM_append, show order.foldlM (C.visit t) (C.enter t before) = some f from ticked]
      show [i].foldlM (C.visit t) f = _
      simp
    rw [visits, visit, due]
    by_cases wakes : C.due t snapshot.spoke i = true
    · rw [if_pos wakes, C.looks i _ _ _ _ _ _ parents, own, last.reacts wakes]
      refine ⟨_, rfl, fun j member => ?_, fun j absent => ?_⟩
      · rcases List.mem_append.mp member with old | here
        · simp [Function.update_of_ne (others old), done j old]
        · rw [List.mem_singleton.mp here]
          simp
      · have apart : j ∉ order ∧ j ≠ i := by simpa using absent
        simp [Function.update_of_ne apart.2, rest j apart.1]
    · obtain ⟨still, quiet⟩ := last.rests (by simpa using wakes)
      rw [if_neg wakes]
      refine ⟨_, rfl, fun j member => ?_, fun j absent => ?_⟩
      · rcases List.mem_append.mp member with old | here
        · exact done j old
        · rw [List.mem_singleton.mp here, own, silent, still, quiet]
          exact ⟨rfl, rfl⟩
      · exact rest j fun old => absent (List.mem_append_left _ old)

theorem replay_concat [∀ i, Inhabited (σ i)] {events : List (Act ι σ τ)} {event : Act ι σ τ} {m : Reactor ι σ}
    (played : C.replay events = some m) : C.replay (events ++ [event]) = C.handle m event := by
  rw [replay, List.foldlM_append, show events.foldlM C.handle _ = some m from played]
  show [event].foldlM C.handle m = _
  simp

end Circuit
end Synchronous
end Wavelet
